import Monkey.Proofs.Eval.Budget
import Monkey.Proofs.Eval.Signals
import Monkey.Proofs.Syntax.Joint

/-!
# `Monkey.Proofs.Eval.Succession`: one program after another

Running two programs one after the other in one scope is running the
program that has the statements of both. Two things stand between the two:
the second run counts its steps anew, which nothing sees that has no limit
(`Uncounted`), and the second run is not to be made when the first stops
early, by an error or by a `return` that no call was there to settle.

* `evalBlockFrom_append` takes a block apart into its first statements and
  the rest.
* `Program.RunsThrough` and `Program.StopsEarly` are the two ways in which a
  program ends.
* `Program.run_followedBy` is the result, for programs, for texts that are
  interpreted, and for a text that holds two programs.
-/

set_option autoImplicit false

namespace Monkey

/-! ### Steps nobody sees -/

/-- The store in which some more steps have been counted. -/
def Store.moreSteps (σ : Store) (k : Nat) : Store := σ.withSteps (σ.steps + k)

namespace Store

variable (σ : Store) (k : Nat)

/-- A step may be counted before the others or behind them, as `(σ.steps + k) + 1` and `(σ.steps +
1) + k` are the same number. -/
theorem tick_moreSteps : (σ.moreSteps k).tick = σ.tick.moreSteps k := by
  show σ.withSteps (σ.steps + k + 1) = σ.withSteps (σ.steps + 1 + k)
  rw [Nat.add_right_comm]

/-- Entering the scope of a call has nothing to do with the count of steps, so `moreSteps` can be
taken out of it. -/
theorem enter_moreSteps (outer : ScopeId) (names : List String) (args : List Value) :
    (σ.moreSteps k).enter outer names args = (σ.enter outer names args).moreSteps k := by
  rw [moreSteps, enter_withSteps, moreSteps, steps_enter]

/-- The steps of the store may be counted from none on: with `rewind` they are forgotten, and with
`moreSteps` they are put back. -/
theorem moreSteps_rewind : σ.rewind.moreSteps σ.steps = σ := by
  show σ.withSteps (0 + σ.steps) = σ
  rw [Nat.zero_add]
  rfl

end Store

/-- Where more steps have been counted before, `y` does what `x` does, and as many more have been
counted behind it. -/
def Uncounted (x y : Eval Value) : Prop :=
  ∀ σ k, y (σ.moreSteps k) = (x σ).map fun r => (r.1, r.2.moreSteps k)

/-- A primitive counts no step, by `Primitive.quiet`, and does not look at the count, by
`Primitive.withSteps`; so it does the same behind more of them. -/
theorem Primitive.uncounted {V : Value → Prop} {x : Eval Value} (hx : Primitive V x) :
    Uncounted x x := by
  intro σ k
  obtain ⟨v, τ, hends, hsteps, -⟩ := hx.quiet σ
  rw [Store.moreSteps, hx.withSteps, hends, Option.map_some, Option.map_some, Store.moreSteps,
    hsteps]

/-- Without a limit, it does not matter how many steps have been counted before: `Uncounted`
respects all the ways in which evaluations are put together. -/
theorem congruent_uncounted : Congruent none none (fun _ => True) Uncounted Uncounted where
  hereditary := hereditary_true
  weaken h := h
  counted {x y} h σ k := by
    show y (σ.moreSteps k).tick = (x σ.tick).map _
    rw [Store.tick_moreSteps]
    exact h σ.tick k
  unlessSignal {x y f g} h hnext σ k := by
    -- Both first parts end with one value, so that both go the same of the three ways.
    have hfirst := h σ k
    cases hx : x σ with
    | none =>
        rw [hx, Option.map_none] at hfirst
        rw [unlessSignal_of_none hx, unlessSignal_of_none hfirst, Option.map_none]
    | some r =>
        obtain ⟨v, τ⟩ := r
        rw [hx, Option.map_some] at hfirst
        cases hv : v.isSignal with
        | true =>
            rw [unlessSignal_of_isSignal hx hv, unlessSignal_of_isSignal hfirst hv,
              Option.map_some]
        | false =>
            rw [unlessSignal_of_value hx hv, unlessSignal_of_value hfirst hv]
            exact hnext v hv trivial τ k
  primitive hx := hx.uncounted
  returned _ _ _ := rfl
  inScope outer names args body body' _ h σ k := by
    show inScope outer names args body' (σ.moreSteps k) = _
    -- The scope of the call has one number in both stores.
    rw [inScope_eq, inScope_eq, Store.enter_moreSteps]
    show Option.map _ (body' σ.scopes.size _) = _
    rw [h σ.scopes.size, Option.map_map, Option.map_map]
    rfl

/-- So a block that starts where steps have been counted does what it does where none have.
`Congruent.blockAt` applies, and `moreSteps_rewind` names the count. -/
theorem evalBlock_uncounted (depth : Nat) (scope : ScopeId) (b : Block) (τ : Store) :
    evalBlock none (evalExpr none depth) scope b τ =
      (evalBlock none (evalExpr none depth) scope b τ.rewind).map
        fun r => (r.1, r.2.moreSteps τ.steps) := by
  have hzero : Uncounted failure failure := fun _ _ => rfl
  have hblock := Congruent.blockAt (fun _ => congruent_uncounted) hzero depth scope b
    τ.rewind τ.steps
  rw [Store.moreSteps_rewind] at hblock
  exact hblock

/-! ### Statements behind statements -/

section Append

variable (limit : Option Nat) (scope : ScopeId)

/-- What is done with a value only counts where the value is no signal, so two continuations `f` and
`g` may be compared under that hypothesis. -/
theorem unlessSignal_congr {x : Eval Value} {f g : Value → Eval Value}
    (h : ∀ v, v.isSignal = false → f v = g v) : unlessSignal x f = unlessSignal x g := by
  refine bind_congr fun v => ?_
  cases hv : v.isSignal with
  | true => rfl
  | false => exact h v hv

/-- A signal goes past two parts as it goes past one. In this form nested uses of `unlessSignal`
become a chain, as a block has it. -/
theorem unlessSignal_assoc (x : Eval Value) (f g : Value → Eval Value) :
    unlessSignal (unlessSignal x f) g = unlessSignal x fun v => unlessSignal (f v) g := by
  unfold unlessSignal
  rw [bind_assoc]
  refine bind_congr fun v => ?_
  cases hv : v.isSignal with
  | true =>
      show (if v.isSignal then pure v else g v) = pure v
      rw [if_pos hv]
  | false => rfl

/-- Statements are evaluated up to some place and, unless that gives a signal, from there on.
Induction on the first block, with `unlessSignal_assoc` at each statement. -/
theorem evalBlockFrom_append (eval : Evaluator) (b b' : Block) {last : Value}
    (hlast : last.isSignal = false) :
    evalBlockFrom limit eval scope last (b ++ b') =
      unlessSignal (evalBlockFrom limit eval scope last b) fun v =>
        evalBlockFrom limit eval scope v b' := by
  induction b generalizing last with
  | nil =>
      funext σ
      -- The value from before takes the place of the last statement; it is no signal, so the rest
      -- follows.
      have hdone : evalBlockFrom limit eval scope last [] σ = some (last, σ) := rfl
      rw [unlessSignal_of_value hdone hlast]
      rfl
  | cons s rest ih =>
      show unlessSignal (evalStatement limit eval scope s) _ =
        unlessSignal (unlessSignal (evalStatement limit eval scope s) _) _
      rw [unlessSignal_assoc]
      exact unlessSignal_congr fun v hv => ih hv

/-- What a block starts from only counts if the block is empty, since the first statement puts its
own value in the place of `last`. -/
theorem evalBlockFrom_eq_evalBlock (eval : Evaluator) {b : Block} (hb : b ≠ []) (last : Value) :
    evalBlockFrom limit eval scope last b = evalBlock limit eval scope b := by
  cases b with
  | nil => exact absurd rfl hb
  | cons s rest => rfl

/-- Nothing more is seen of statements behind a signal: the report is the same with the block `b'`
behind it. The induction finds the statement that gave the signal. -/
theorem Watched.evalBlockFrom_append_of_isSignal (eval : Watched.Evaluator) (b b' : Block)
    {last v : Value} {σ τ : Store} (hlast : last.isSignal = false)
    (h : (Watched.evalBlockFrom limit eval scope last b σ).outcome = some (v, τ))
    (hv : v.isSignal = true) :
    Watched.evalBlockFrom limit eval scope last (b ++ b') σ =
      Watched.evalBlockFrom limit eval scope last b σ := by
  induction b generalizing last σ with
  -- A block that is empty gives no signal, so this is not the case.
  | nil =>
      cases h
      rw [hlast] at hv
      cases hv
  | cons s rest ih =>
      show (Watched.evalStatement limit eval scope s σ).andThen _ =
        (Watched.evalStatement limit eval scope s σ).andThen _
      have hwhole : ((Watched.evalStatement limit eval scope s σ).andThen fun w ρ =>
        if w.isSignal then .ended w ρ
        else Watched.evalBlockFrom limit eval scope w rest ρ).outcome = some (v, τ) := h
      unfold Report.andThen at hwhole ⊢
      cases hfirst : (Watched.evalStatement limit eval scope s σ).outcome with
      | none => rfl
      | some r =>
          obtain ⟨w, ρ⟩ := r
          rw [hfirst] at hwhole
          dsimp only at hwhole ⊢
          -- Either this statement gives the signal, or one of the others does.
          cases hw : w.isSignal with
          | true => rfl
          | false =>
              rw [hw] at hwhole
              exact congrArg (Report.after _) (ih hw hwhole)

/-- A block that is watched ends as it does otherwise. As for programs, it is `Likeness.block` in
the likeness `holding` of all values. -/
theorem Watched.outcome_evalBlock (depth : Nat) (b : Block) (σ : Store) :
    (Watched.evalBlock limit (Watched.evalExpr limit depth) scope b σ).outcome =
      Monkey.evalBlock limit (Monkey.evalExpr limit depth) scope b σ := by
  have hblock : (Likeness.holding hereditary_true).Accords ()
      (Watched.evalBlock limit (Watched.evalExpr limit depth) scope b)
      (Monkey.evalBlock limit (Monkey.evalExpr limit depth) scope b) :=
    Likeness.block (Likeness.expr _ limit depth) trivial fun _ _ => trivial
  exact (hblock σ σ ⟨rfl, fun _ _ _ _ => trivial⟩).ended.eq_of_holding

end Append

/-! ### How programs end -/

namespace Program

/-- The statements of one program and behind them those of another. -/
def followedBy (p q : Program) : Program := ⟨p.statements ++ q.statements⟩

section Ways

variable (p : Program) (scope : ScopeId) (σ : Store) (v : Value) (τ : Store)

/-- Without a limit, the program ends with the value `v`, and it ends neither by an error nor by a
`return` at the top. -/
def RunsThrough : Prop :=
  ∃ depth, evalBlock none (evalExpr none depth) scope p.statements σ.rewind = some (v, τ) ∧
    v.isSignal = false

/-- Without a limit, the program ends by an error, which is then `v`, or by a `return` at the top,
which has the value `v`. -/
def StopsEarly : Prop :=
  ∃ depth signal,
    evalBlock none (evalExpr none depth) scope p.statements σ.rewind = some (signal, τ) ∧
      signal.isSignal = true ∧ signal.settle = v

end Ways

variable {p q : Program} {scope : ScopeId} {σ τ ρ : Store} {v w : Value}

/-- A program that ends has run through or stopped early. The two are told apart by whether its
block gave a signal, which `settle` leaves no trace of. -/
theorem ends_iff_runsThrough_or_stopsEarly :
    p.Ends none scope σ v τ ↔ p.RunsThrough scope σ v τ ∨ p.StopsEarly scope σ v τ := by
  constructor
  · rintro ⟨depth, hrun⟩
    obtain ⟨last, hblock, hsettle⟩ := run_eq_some.1 hrun
    cases hlast : last.isSignal with
    | true => exact .inr ⟨depth, last, hblock, hlast, hsettle⟩
    | false =>
        rw [Value.settle_of_value hlast] at hsettle
        exact .inl ⟨depth, hsettle ▸ hblock, hsettle ▸ hlast⟩
  · rintro (⟨depth, hblock, hv⟩ | ⟨depth, signal, hblock, -, hsettle⟩)
    · exact ⟨depth, run_eq_some.2 ⟨v, hblock, Value.settle_of_value hv⟩⟩
    · exact ⟨depth, run_eq_some.2 ⟨signal, hblock, hsettle⟩⟩

/-- What the statements of a program end with they end with at every larger depth. Two runs of
different depth are compared at the larger one. -/
theorem evalBlock_of_le {depth depth' : Nat} (hle : depth ≤ depth') {b : Block}
    {r : Value × Store} (h : evalBlock none (evalExpr none depth) scope b σ = some r) :
    evalBlock none (evalExpr none depth') scope b σ = some r :=
  (congruent_endsAlike none).block (evalExpr_endsAlike hle) scope b σ r h

/-- The statements of the first program are evaluated, and then, unless there was a signal, those of
the second. Here `q` has to have a statement: otherwise the last value would be that of `p`. -/
theorem evalBlock_followedBy (p : Program) {q : Program} (hq : q.statements ≠ []) (depth : Nat) :
    evalBlock none (evalExpr none depth) scope (p.followedBy q).statements =
      unlessSignal (evalBlock none (evalExpr none depth) scope p.statements) fun _ =>
        evalBlock none (evalExpr none depth) scope q.statements := by
  show evalBlockFrom none _ scope .null (p.statements ++ q.statements) = _
  rw [evalBlockFrom_append none scope _ _ _ rfl]
  exact unlessSignal_congr fun v _ => evalBlockFrom_eq_evalBlock none scope _ hq v

/-- Behind a program that runs through, another one does what it does by itself, but for the steps
that have been counted before: `evalBlock_followedBy`, and then `evalBlock_uncounted`. -/
theorem RunsThrough.ends_followedBy_iff (h : p.RunsThrough scope σ v τ) (hq : q.statements ≠ []) :
    (p.followedBy q).Ends none scope σ w ρ ↔
      ∃ μ, q.Ends none scope τ w μ ∧ ρ = μ.moreSteps τ.steps := by
  obtain ⟨depth, hp, hv⟩ := h
  -- At any depth at which `p` ends, both sides evaluate the statements of `q` from `τ`.
  have hsecond {depth' : Nat} (hle : depth ≤ depth') :
      evalBlock none (evalExpr none depth') scope (p.followedBy q).statements σ.rewind =
        (evalBlock none (evalExpr none depth') scope q.statements τ.rewind).map
          fun r => (r.1, r.2.moreSteps τ.steps) := by
    rw [evalBlock_followedBy p hq, unlessSignal_of_value (evalBlock_of_le hle hp) hv,
      evalBlock_uncounted]
  constructor
  · rintro ⟨depth', hrun⟩
    obtain ⟨last, hblock, hsettle⟩ := run_eq_some.1 hrun
    have hdeeper := evalBlock_of_le (Nat.le_max_right depth depth') hblock
    rw [hsecond (Nat.le_max_left depth depth'), Option.map_eq_some_iff] at hdeeper
    obtain ⟨⟨u, μ⟩, hu, heq⟩ := hdeeper
    cases heq
    exact ⟨μ, ⟨_, run_eq_some.2 ⟨u, hu, hsettle⟩⟩, rfl⟩
  · rintro ⟨μ, ⟨depth', hrun⟩, rfl⟩
    obtain ⟨last, hblock, hsettle⟩ := run_eq_some.1 hrun
    have hdeeper := evalBlock_of_le (Nat.le_max_right depth depth') hblock
    refine ⟨max depth depth', run_eq_some.2 ⟨last, ?_, hsettle⟩⟩
    rw [hsecond (Nat.le_max_left depth depth'), hdeeper, Option.map_some]

/-- Behind a program that stops early nothing is evaluated any more, by `evalBlockFrom_append`: the
signal of the first part is the signal of the whole. -/
theorem StopsEarly.ends_followedBy (h : p.StopsEarly scope σ v τ) (q : Program) :
    (p.followedBy q).Ends none scope σ v τ := by
  obtain ⟨depth, signal, hp, hsignal, hsettle⟩ := h
  refine ⟨depth, run_eq_some.2 ⟨signal, ?_, hsettle⟩⟩
  show evalBlockFrom none _ scope .null (p.statements ++ q.statements) _ = _
  rw [evalBlockFrom_append none scope _ _ _ rfl]
  exact unlessSignal_of_isSignal hp hsignal

/-- So that the two end as the first one does, and in no other way, because a program has one end at
most. -/
theorem StopsEarly.ends_followedBy_iff (h : p.StopsEarly scope σ v τ) (q : Program) {w : Value}
    {ρ : Store} : (p.followedBy q).Ends none scope σ w ρ ↔ w = v ∧ ρ = τ := by
  constructor
  · intro hw
    exact hw.unique (h.ends_followedBy q)
  · rintro ⟨rfl, rfl⟩
    exact h.ends_followedBy q

/-- Whoever watches sees of both programs what there is to be seen of the one that stops early. That
`p` ends at this depth is a hypothesis, for otherwise the two would not get to the signal. -/
theorem StopsEarly.watched_followedBy (h : p.StopsEarly scope σ v τ) (q : Program) {depth : Nat}
    (hends : (p.run none depth scope σ).isSome) :
    (p.followedBy q).watched none depth scope σ = p.watched none depth scope σ := by
  obtain ⟨depth', signal, hp, hsignal, -⟩ := h
  obtain ⟨⟨u, μ⟩, hrun⟩ := Option.isSome_iff_exists.1 hends
  obtain ⟨last, hblock, -⟩ := run_eq_some.1 hrun
  -- At the larger depth the statements end both ways, so that they end with the signal here too.
  have hsame := (evalBlock_of_le (Nat.le_max_left depth depth') hblock).symm.trans
    (evalBlock_of_le (Nat.le_max_right depth depth') hp)
  cases hsame
  have houtcome : (Watched.evalBlock none (Watched.evalExpr none depth) scope p.statements
      σ.rewind).outcome = some (signal, τ) := by
    rw [Watched.outcome_evalBlock, hblock]
  exact congrArg (Report.andThen · fun v τ => .ended v.settle τ)
    (Watched.evalBlockFrom_append_of_isSignal none scope _ _ _ rfl houtcome hsignal)

end Program

/-! ### Texts -/

/-- Interpreting the text in a scope of the store `σ` ends with the result `r` and the store `τ`. -/
def Interprets (scope : ScopeId) (text : String) (σ : Store) (r : Except Failure Value)
    (τ : Store) : Prop :=
  ∃ depth, interpret depth scope text σ = some (r, τ)

section Texts

variable {text : String} {p : Program} {scope : ScopeId} {σ τ : Store} {r : Except Failure Value}

/-- Interpreting the text of a program is running the program, at any depth at which it ends, and
turning its value into a result. -/
theorem interprets_iff_ends (h : Program.parse text = .ok p) :
    Interprets scope text σ r τ ↔ ∃ v, p.Ends none scope σ v τ ∧ r = v.toResult := by
  constructor
  · rintro ⟨depth, hinterpret⟩
    rw [interpret_of_ok σ h, Option.map_eq_some_iff] at hinterpret
    obtain ⟨⟨v, ρ⟩, hrun, heq⟩ := hinterpret
    cases heq
    exact ⟨v, ⟨depth, hrun⟩, rfl⟩
  · rintro ⟨v, ⟨depth, hrun⟩, rfl⟩
    refine ⟨depth, ?_⟩
    rw [interpret_of_ok σ h, hrun, Option.map_some]

/-- A program that runs through is interpreted as its last value, which is no signal and so no
failure. -/
theorem Program.RunsThrough.interprets {v : Value} (h : p.RunsThrough scope σ v τ)
    (hp : Program.parse text = .ok p) : Interprets scope text σ (.ok v) τ := by
  have hends : p.Ends none scope σ v τ := Program.ends_iff_runsThrough_or_stopsEarly.2 (.inl h)
  obtain ⟨depth, -, hv⟩ := h
  exact (interprets_iff_ends hp).2 ⟨v, hends, (Value.toResult_of_value hv).symm⟩

/-- A program that stops early is interpreted as what it stops with: the value that was returned, or
the failure that `toResult` makes of the error. -/
theorem Program.StopsEarly.interprets {v : Value} (h : p.StopsEarly scope σ v τ)
    (hp : Program.parse text = .ok p) : Interprets scope text σ v.toResult τ :=
  (interprets_iff_ends hp).2 ⟨v, Program.ends_iff_runsThrough_or_stopsEarly.2 (.inr h), rfl⟩

section FollowedBy

variable {next whole : String} {q : Program} {v : Value} {ρ : Store}

/-- Behind a program that runs through the text of the next one is interpreted. This is
`RunsThrough.ends_followedBy_iff` for texts, through `interprets_iff_ends` on both sides. -/
theorem Program.RunsThrough.interprets_followedBy_iff (h : p.RunsThrough scope σ v τ)
    (hsome : q.statements ≠ []) (hq : Program.parse next = .ok q)
    (hwhole : Program.parse whole = .ok (p.followedBy q)) :
    Interprets scope whole σ r ρ ↔
      ∃ μ, Interprets scope next τ r μ ∧ ρ = μ.moreSteps τ.steps := by
  rw [interprets_iff_ends hwhole]
  constructor
  · rintro ⟨w, hw, rfl⟩
    obtain ⟨μ, hμ, rfl⟩ := (h.ends_followedBy_iff hsome).1 hw
    exact ⟨μ, (interprets_iff_ends hq).2 ⟨w, hμ, rfl⟩, rfl⟩
  · rintro ⟨μ, hμ, rfl⟩
    obtain ⟨w, hw, rfl⟩ := (interprets_iff_ends hq).1 hμ
    exact ⟨w, (h.ends_followedBy_iff hsome).2 ⟨μ, hw, rfl⟩, rfl⟩

/-- Behind a program that stops early nothing is interpreted any more, whatever the text `whole`
says after it. -/
theorem Program.StopsEarly.interprets_followedBy_iff (h : p.StopsEarly scope σ v τ)
    (hwhole : Program.parse whole = .ok (p.followedBy q)) :
    Interprets scope whole σ r ρ ↔ r = v.toResult ∧ ρ = τ := by
  rw [interprets_iff_ends hwhole]
  constructor
  · rintro ⟨w, hw, rfl⟩
    obtain ⟨rfl, rfl⟩ := (h.ends_followedBy_iff q).1 hw
    exact ⟨rfl, rfl⟩
  · rintro ⟨rfl, rfl⟩
    exact ⟨v, h.ends_followedBy q, rfl⟩

end FollowedBy

end Texts

/-! ### The result -/

/-- Running a session line by line is running one program.

A program that ends, without a limit, runs through or stops early. If `p` runs through, then running
`q` behind it in the store that it leaves ends with a value exactly when the program with the
statements of both does. Both give the same value, and leave the same scopes, the same identities
and the same printed text; only the count of steps goes on from one in the other. If `p` stops
early, then that program ends as `p` does, and nothing is seen of it that is not seen of `p`.

The same is true of texts that are interpreted. Two texts that are programs become such a text when
a semicolon is put between them on a line of its own, if the first has a lexeme and does not end on
a semicolon itself.

For programs it is put together of `RunsThrough.ends_followedBy_iff` and the two lemmas on
`StopsEarly`; the texts add only what the parser does with both at once. -/
theorem Program.run_followedBy (p q : Program) (scope : ScopeId) (σ : Store) :
    (∀ v τ, p.Ends none scope σ v τ ↔
      p.RunsThrough scope σ v τ ∨ p.StopsEarly scope σ v τ) ∧
    (∀ v τ, p.RunsThrough scope σ v τ → q.statements ≠ [] → ∀ w ρ,
      ((p.followedBy q).Ends none scope σ w ρ ↔
        ∃ μ, q.Ends none scope τ w μ ∧ ρ = μ.moreSteps τ.steps)) ∧
    (∀ v τ, p.StopsEarly scope σ v τ →
      (∀ w ρ, (p.followedBy q).Ends none scope σ w ρ ↔ w = v ∧ ρ = τ) ∧
      ∀ depth, (p.run none depth scope σ).isSome →
        (p.followedBy q).watched none depth scope σ = p.watched none depth scope σ) ∧
    ∀ a b, Program.parse a = .ok p → Program.parse b = .ok q →
      (∀ whole, Program.parse whole = .ok (p.followedBy q) →
        (∀ v τ, p.RunsThrough scope σ v τ → Interprets scope a σ (.ok v) τ ∧
          (q.statements ≠ [] → ∀ r ρ, (Interprets scope whole σ r ρ ↔
            ∃ μ, Interprets scope b τ r μ ∧ ρ = μ.moreSteps τ.steps))) ∧
        ∀ v τ, p.StopsEarly scope σ v τ → Interprets scope a σ v.toResult τ ∧
          ∀ r ρ, (Interprets scope whole σ r ρ ↔ r = v.toResult ∧ ρ = τ)) ∧
      ((tokenize a).lexemes ≠ [] →
        (tokenize a).lexemes.getLast? ≠ some (.symbol .semicolon) →
        Program.parse (a ++ "\n;\n" ++ b) = .ok (p.followedBy q)) := by
  refine ⟨fun v τ => ends_iff_runsThrough_or_stopsEarly,
    fun v τ h hsome w ρ => h.ends_followedBy_iff hsome,
    fun v τ h => ⟨fun w ρ => h.ends_followedBy_iff q, fun depth => h.watched_followedBy q⟩,
    fun a b ha hb => ⟨fun whole hwhole => ⟨fun v τ h => ?_, fun v τ h => ?_⟩, parse_join ha hb⟩⟩
  · exact ⟨h.interprets ha, fun hsome r ρ => h.interprets_followedBy_iff hsome hb hwhole⟩
  · exact ⟨h.interprets ha, fun r ρ => h.interprets_followedBy_iff hwhole⟩

/-- The second line sees what the first one binds and prints behind it, and a line that returns
keeps it from being looked at. -/
theorem Program.run_followedBy_of_lines :
    let first := "puts(1)\nlet x = 2"
    let stop := "if (true) \x7b return 5 \x7d\nputs(1)"
    let second := "puts(x); x * 3"
    let σ := (Store.empty.addScope none).2
    (∃ u v τ μ, Interprets 0 first σ (.ok u) τ ∧ Interprets 0 second τ (.ok v) μ ∧
      Interprets 0 (first ++ "\n;\n" ++ second) σ (.ok v) (μ.moreSteps τ.steps) ∧
      v.inspect = "6" ∧ μ.printed = "1\n2\n") ∧
    ∃ v τ, Interprets 0 (stop ++ "\n;\n" ++ second) σ (.ok v) τ ∧
      v.inspect = "5" ∧ τ.printed = "" := by
  intro first stop second σ
  let p : String → Program := fun text => (Survey.ofText text).program
  have hparse : ∀ text, (Survey.ofText text).diagnostics.isEmpty = true →
      Program.parse text = .ok (p text) := fun text h => if_pos h
  have hfirst := hparse first (by subst first; decide +kernel)
  have hstop := hparse stop (by subst stop; decide +kernel)
  have hsecond := hparse second (by subst second; decide +kernel)
  constructor
  · have hline : ((evalBlock none (evalExpr none 9) 0 (p first).statements σ.rewind).map
        fun r => r.1.isSignal) = some false := by
      subst p σ first
      decide +kernel
    have hboth : ((((p first).followedBy (p second)).run none 9 0 σ).map
        fun r => (r.1.isSignal, r.1.inspect, r.2.printed)) = some (false, "6", "1\n2\n") := by
      subst p σ first second
      decide +kernel
    obtain ⟨⟨u, τ⟩, hblock, hu⟩ := Option.map_eq_some_iff.1 hline
    obtain ⟨⟨v, ρ⟩, hrun, hshown⟩ := Option.map_eq_some_iff.1 hboth
    simp only [Prod.mk.injEq] at hshown
    obtain ⟨hv, hinspect, hprinted⟩ := hshown
    obtain ⟨-, -, -, htexts⟩ := run_followedBy (p first) (p second) 0 σ
    obtain ⟨hinterpret, hjoin⟩ := htexts first second hfirst hsecond
    have hwhole := hjoin (by subst first; decide +kernel) (by subst first; decide +kernel)
    obtain ⟨hone, htwo⟩ := (hinterpret _ hwhole).1 u τ ⟨9, hblock, hu⟩
    -- Both lines are run at once, and the general theorem tells what the second does by itself.
    have hends : Interprets 0 (first ++ "\n;\n" ++ second) σ (.ok v) ρ :=
      (interprets_iff_ends hwhole).2 ⟨v, ⟨9, hrun⟩, (Value.toResult_of_value hv).symm⟩
    obtain ⟨μ, hμ, rfl⟩ := (htwo (by subst p second; decide +kernel) _ _).1 hends
    exact ⟨u, v, τ, μ, hone, hμ, hends, hinspect, hprinted⟩
  · have hline : ((evalBlock none (evalExpr none 9) 0 (p stop).statements σ.rewind).map
        fun r => (r.1.isSignal, r.1.settle.isSignal, r.1.settle.inspect, r.2.printed)) =
          some (true, false, "5", "") := by
      subst p σ stop
      decide +kernel
    obtain ⟨⟨signal, τ⟩, hblock, hshown⟩ := Option.map_eq_some_iff.1 hline
    simp only [Prod.mk.injEq] at hshown
    obtain ⟨hsignal, hv, hinspect, hprinted⟩ := hshown
    obtain ⟨-, -, -, htexts⟩ := run_followedBy (p stop) (p second) 0 σ
    obtain ⟨hinterpret, hjoin⟩ := htexts stop second hstop hsecond
    have hwhole := hjoin (by subst stop; decide +kernel) (by subst stop; decide +kernel)
    -- The first line ends with a signal, which is the `return` at the top.
    have hearly := (hinterpret _ hwhole).2 signal.settle τ ⟨9, signal, hblock, hsignal, rfl⟩
    refine ⟨signal.settle, τ, (hearly.2 _ τ).2 ⟨?_, rfl⟩, hinspect, hprinted⟩
    exact (Value.toResult_of_value hv).symm

end Monkey
