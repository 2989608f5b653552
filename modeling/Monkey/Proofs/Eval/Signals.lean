import Monkey.Proofs.Eval.Exceptions
import Monkey.Session

/-!
# `Monkey.Proofs.Eval.Signals`: signals do not get into data

Whatever is seen of an evaluation that begins without signals in its store
is free of them: every store on the way, the arguments of every call, and
the result of every statement and expression but for the signal that it
may be itself. So a value on its way to a caller never holds another
signal, and one of them never comes out of a program.

* `Sighting.Clean` says what may be seen.
* `Shows.run`: nothing else is seen of a run, since a store without signals
  is like itself (`Likeness.holding`).
* `Store.Leads` goes from a store to every store that programs and texts
  make of it.
-/

set_option autoImplicit false

namespace Monkey

/-- No signal is seen in data. A result may be an error, or a value on its way to a caller which
has no signal in it. -/
def Sighting.Clean : Sighting → Prop
  | .state σ => σ.Clean
  | .arguments args => ∀ v ∈ args, v.Clean
  | .result v => v.Arrives Value.Clean

/-! ### Watching -/

/-- What is to be expected of stores without signals has no signal in it. In the likeness `holding`
there is one world, so `Expected` says what `Clean` says. -/
theorem Sighting.Clean.of_expected {w : Unit} {s : Sighting}
    (h : (Likeness.holding hereditary_clean).Expected w s) : s.Clean := by
  cases s with
  | state σ =>
      obtain ⟨_, _, _, _, hσ⟩ := h
      exact hσ
  | arguments args =>
      obtain ⟨_, _, hargs⟩ := h
      exact hargs
  | result v =>
      obtain ⟨_, _, hv⟩ := h
      exact hv

/-- Only clean sightings have been made. -/
def Report.Clean (r : Report) : Prop := ∀ s ∈ r.seen, s.Clean

/-- `x` is the evaluation `y`, watched: from a store without signals it ends as `y` does, and
nothing is seen that should not be. -/
structure Shows (x : Watched) (y : Eval Value) : Prop where
  outcome : ∀ σ, σ.Clean → (x σ).outcome = y σ
  clean : ∀ σ, σ.Clean → (x σ).Clean

/-- Watching shows runs: by `Program.outcome_watched` they end as they do otherwise, and by
`Likeness.run` at `hereditary_clean` every sighting is clean. -/
theorem Shows.run (p : Program) (limit : Option Nat) (depth : Nat) (scope : ScopeId) :
    Shows (p.watched limit depth scope) (p.run limit depth scope) where
  outcome σ _ := p.outcome_watched limit depth scope σ
  clean σ hσ s hs := by
    have hrun := (Likeness.holding hereditary_clean).run (w := ()) (p := p) (s := scope) trivial
      (fun _ _ => trivial) limit depth σ σ ⟨rfl, hσ⟩
    exact .of_expected (hrun.seen s hs)

/-! ### Programs one after another -/

/-- What is given to a caller is an error, or has no signal in it: `settle` takes the value out of
its wrapper, which is the only signal besides an error. -/
theorem Value.Arrives.answers_settle {V : Value → Prop} {v : Value} (h : v.Arrives V) :
    v.settle.Answers V := by
  cases v with
  | error => exact .inl rfl
  | _ => exact .inr h

/-- What is no failure has no signal in it, for `toResult` makes a failure of every error, and an
answer that is no error is of the class `V`. -/
theorem Value.Answers.of_toResult {V : Value → Prop} {v w : Value} (h : w.Answers V)
    (hw : w.toResult = .ok v) : V v := by
  cases w with
  | error => cases hw
  | _ =>
      cases hw
      exact h.resolve_left Bool.false_ne_true

/-- Neither an error nor a value without signals is on its way to a caller. The wrapper is a signal
itself, so `Clean` does not hold of it. -/
theorem Value.Answers.ne_returned {v : Value} (h : v.Answers Value.Clean) (w : Value) :
    v ≠ .returned w := by
  intro hv
  subst hv
  rcases h with herror | hclean
  · cases herror
  · cases hclean.isSignal

/-- A program ends with an error, or with a value that has no signal in it: its block keeps
the class of clean values, by `keeps_evalBlock`, and its result is settled. -/
theorem Program.run_answers {p : Program} {limit : Option Nat} {depth : Nat} {scope : ScopeId}
    {σ τ : Store} {v : Value} (hσ : σ.Clean) (h : p.run limit depth scope σ = some (v, τ)) :
    v.Answers Value.Clean := by
  obtain ⟨w, hblock, rfl⟩ := Program.run_eq_some.1 h
  have hrewound : σ.rewind.Clean := hσ
  exact (keeps_evalBlock hereditary_clean hrewound hblock).1.answers_settle

/-- A value that is no signal is a result. Neither of the two kinds of value that `toResult` treats
apart is left then. -/
theorem Value.toResult_of_value {v : Value} (hv : v.isSignal = false) : v.toResult = .ok v := by
  cases v with
  | error => cases hv
  | _ => rfl

/-- A text that is a program is run without a limit, and what it ends with is a result or a failure.
The other branch of `interpret` is a malformed text. -/
theorem interpret_of_ok {depth : Nat} {scope : ScopeId} {text : String} {p : Program} (σ : Store)
    (h : Program.parse text = .ok p) :
    interpret depth scope text σ =
      (p.run none depth scope σ).map fun a => (a.1.toResult, a.2) := by
  unfold interpret
  rw [h]
  show (p.run none depth scope σ).bind _ = _
  cases p.run none depth scope σ <;> rfl

/-- What interpreting a text ends with: the text was malformed and nothing was done, or it was a
program and has been run. The inversion lemma for `interpret`. -/
theorem interpret_eq_some {depth : Nat} {scope : ScopeId} {text : String} {σ τ : Store}
    {r : Except Failure Value} (h : interpret depth scope text σ = some (r, τ)) :
    (τ = σ ∧ ∃ diagnostics, r = .error (.malformed diagnostics)) ∨
      ∃ (p : Program) (v : Value), p.run none depth scope σ = some (v, τ) ∧ r = v.toResult := by
  cases hparse : Program.parse text with
  | error diagnostics =>
      unfold interpret at h
      rw [hparse] at h
      cases h
      exact .inl ⟨rfl, diagnostics, rfl⟩
  | ok p =>
      rw [interpret_of_ok σ hparse, Option.map_eq_some_iff] at h
      obtain ⟨⟨v, ρ⟩, hrun, heq⟩ := h
      cases heq
      exact .inr ⟨p, v, hrun, rfl⟩

/-- The stores that programs and texts make of a store, one after another, whether they fail or not.
A fresh scope may be made for them to be run in. -/
inductive Store.Leads (σ : Store) : Store → Prop where
  | refl : σ.Leads σ
  | session {τ : Store} (h : σ.Leads τ) : σ.Leads (τ.addScope none).2
  | run {τ ρ : Store} {p : Program} {limit : Option Nat} {depth : Nat} {scope : ScopeId}
      {v : Value} (h : σ.Leads τ) (hrun : p.run limit depth scope τ = some (v, ρ)) : σ.Leads ρ
  | interpret {τ ρ : Store} {depth : Nat} {scope : ScopeId} {text : String}
      {r : Except Failure Value} (h : σ.Leads τ)
      (hrun : interpret depth scope text τ = some (r, ρ)) : σ.Leads ρ

/-- No signal gets into a store by programs and texts, one after another: `Program.keeps` for a run,
and for a text one of the two cases of `interpret_eq_some`. -/
theorem Store.Leads.clean {σ τ : Store} (h : σ.Leads τ) (hσ : σ.Clean) : τ.Clean := by
  induction h with
  | refl => exact hσ
  | session _ ih => exact Store.Holds.addScope ih none
  | run _ hrun ih => exact (Program.keeps hereditary_clean ih hrun).2
  | interpret _ hrun ih =>
      obtain ⟨rfl, -⟩ | ⟨p, v, hrun, -⟩ := interpret_eq_some hrun
      · exact ih
      · exact (Program.keeps hereditary_clean ih hrun).2

/-- Signals never get into data.

Begin with a store without signals, and run programs and texts in it, with or without limits,
whether they fail or not. Then no store that comes of it has a signal in it. Whatever program is run
next, it does the same when it is watched, and nothing is seen of it that has a signal in it where
none belongs: no store on the way, no argument of a call, no value on its way to a caller. It ends
with an error, or with a value without signals, and never with a value on its way to a caller.
Interpreting a text is running it so, and what it succeeds with has no signal in it. The store of a
new session has no signal in it either.

The store is clean by `Store.Leads.clean`; what is seen on the way is clean by `Shows.run`, and what
comes out is by `Program.run_answers`. -/
theorem Program.signals_contained {σ τ : Store} (hσ : σ.Clean) (h : σ.Leads τ) :
    τ.Clean ∧
    (∀ (p : Program) limit depth scope,
      (p.watched limit depth scope τ).outcome = p.run limit depth scope τ ∧
      (∀ s ∈ (p.watched limit depth scope τ).seen, s.Clean) ∧
      ∀ v ρ, p.run limit depth scope τ = some (v, ρ) →
        (v.isError = true ∨ v.Clean) ∧ ∀ w, v ≠ .returned w) ∧
    (∀ depth scope text p, Program.parse text = .ok p →
      interpret depth scope text τ =
        (p.watched none depth scope τ).outcome.map fun a => (a.1.toResult, a.2)) ∧
    (∀ depth scope text v ρ, interpret depth scope text τ = some (.ok v, ρ) → v.Clean) ∧
    (Store.empty.addScope none).2.Clean := by
  have hτ : τ.Clean := h.clean hσ
  refine ⟨hτ, fun p limit depth scope => ?_, fun depth scope text p hparse => ?_,
    fun depth scope text v ρ hrun => ?_, Store.holds_empty.addScope none⟩
  · have hshows := Shows.run p limit depth scope
    refine ⟨hshows.outcome τ hτ, hshows.clean τ hτ, fun v ρ hrun => ?_⟩
    have hanswers := Program.run_answers hτ hrun
    exact ⟨hanswers, hanswers.ne_returned⟩
  · rw [(Shows.run p none depth scope).outcome τ hτ]
    exact interpret_of_ok τ hparse
  · obtain ⟨-, diagnostics, hresult⟩ | ⟨p, w, hend, hresult⟩ := interpret_eq_some hrun
    · cases hresult
    · exact (Program.run_answers hτ hend).of_toResult hresult.symm

/-- A `return` in a conditional inside an array ends the call that it stands in, and the program
returns what the call gives. Of the run 36 things are seen. -/
theorem Program.signals_contained_of_buried_return :
    let p : Program := ⟨[.returning (.call (.function ["x"] [.expression (.array [.identifier "x",
      .conditional (.boolean true) [.returning (.identifier "x")] none])]) [.integer 5])]⟩
    let σ := (Store.empty.addScope none).2
    σ.Clean ∧ ∃ v τ, p.run none 9 0 σ = some (v, τ) ∧ v.inspect = "5" ∧ τ.Clean ∧
      (p.watched none 9 0 σ).seen.length = 36 ∧ ∀ s ∈ (p.watched none 9 0 σ).seen, s.Clean := by
  intro p σ
  have hσ : σ.Clean := Store.holds_empty.addScope none
  have hends : ((p.run none 9 0 σ).map fun a => a.1.inspect) = some "5" := by
    subst p σ
    decide +kernel
  have hlength : (p.watched none 9 0 σ).seen.length = 36 := by
    subst p σ
    decide +kernel
  obtain ⟨⟨v, τ⟩, hrun, hv⟩ := Option.map_eq_some_iff.1 hends
  obtain ⟨-, hwatched, -⟩ := signals_contained hσ .refl
  obtain ⟨hτ, -⟩ := signals_contained hσ (.run .refl hrun)
  exact ⟨hσ, v, τ, hrun, hv, hτ, hlength, (hwatched p none 9 0).2.1⟩

end Monkey
