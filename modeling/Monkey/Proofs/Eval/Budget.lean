import Monkey.Proofs.Eval.Depth
import Monkey.Proofs.Eval.Likeness

/-!
# `Monkey.Proofs.Eval.Budget`: limits on the number of steps

A limit cuts an evaluation short and changes nothing else. Two runs, one
with the limit `n` and one with a wider limit or none, go through the same
stores until step `n + 1`, and there the first one has its error, which is
a signal, so that it comes out of every construct at once.

* `InStep n` relates a limited evaluation to a less limited one; what it
  says of a whole run is proved from `congruent_inStep`.
* `EndsWithin n depth` says that a limited evaluation ends; each level of
  nesting takes a step, so that `n + 1` levels are enough.
-/

set_option autoImplicit false

namespace Monkey

/-! ### Later stores -/

/-- The store `τ` comes later than `σ`: no fewer steps are counted, and the printed text goes on. -/
structure Store.Later (σ τ : Store) : Prop where
  steps : σ.steps ≤ τ.steps
  printed : ∃ more, τ.printed = σ.printed ++ more

namespace Store.Later

variable {σ τ ρ : Store}

/-- Every store is `Later` than itself, with nothing more printed. -/
theorem refl (σ : Store) : σ.Later σ := ⟨Nat.le_refl _, "", by simp⟩

/-- Later than later is `Later`: steps add up, and the printed text goes on twice. -/
theorem trans (h : σ.Later τ) (h' : τ.Later ρ) : σ.Later ρ := by
  obtain ⟨more, hmore⟩ := h.printed
  obtain ⟨rest, hrest⟩ := h'.printed
  refine ⟨Nat.le_trans h.steps h'.steps, more ++ rest, ?_⟩
  rw [hrest, hmore, String.append_assoc]

/-- Counting a step makes a store `Later`, and prints nothing. -/
theorem tick (σ : Store) : σ.Later σ.tick := ⟨Nat.le_succ _, "", by simp⟩

end Store.Later

/-- A call starts in a later store: a scope is opened and arguments are bound there, but no step is
counted and nothing is printed. -/
theorem Store.Later.enter (σ : Store) (outer : ScopeId) (names : List String)
    (args : List Value) : σ.Later (σ.enter outer names args) :=
  ⟨by simp, "", by simp⟩

/-- The evaluation ends in a later store without counting a step. -/
def Quiet (x : Eval Value) : Prop :=
  ∀ σ, ∃ v τ, x σ = some (v, τ) ∧ τ.steps = σ.steps ∧ σ.Later τ

/-- Giving a value is `Quiet`: the store stays as it is. -/
theorem quiet_pure (v : Value) : Quiet (pure v) := fun σ => ⟨v, σ, rfl, rfl, .refl σ⟩

/-- Every primitive is `Quiet`. Steps are counted where an evaluation enters a node or a statement,
and nowhere else. -/
theorem Primitive.quiet {V : Value → Prop} {x : Eval Value} (hx : Primitive V x) : Quiet x := by
  intro σ
  cases hx with
  | give => exact quiet_pure _ σ
  | identifier scope name => exact ⟨_, σ, evalIdentifier_eq scope name σ, rfl, .refl σ⟩
  | array => exact ⟨_, _, rfl, rfl, Nat.le_refl _, "", by simp⟩
  | hash => exact ⟨_, _, rfl, rfl, Nat.le_refl _, "", by simp⟩
  | function => exact ⟨_, _, rfl, rfl, Nat.le_refl _, "", by simp⟩
  | bind => exact ⟨_, _, rfl, rfl, Nat.le_refl _, "", by simp [Store.bind]⟩
  | print text => exact ⟨_, _, rfl, rfl, Nat.le_refl _, text, rfl⟩

/-! ### Two limits -/

/-- A limit that is no narrower than `n`: a number from `n` on, or none. -/
def AtLeast (n : Nat) : Option Nat → Prop
  | none => True
  | some m => n ≤ m

/-- What exceeds a wider limit exceeds the narrower one. Having no limit is the widest, and nothing
exceeds it. -/
theorem AtLeast.lt_of_exceeds {n steps : Nat} {limit : Option Nat} (h : AtLeast n limit)
    (hsteps : Exceeds steps limit) : n < steps := by
  cases limit with
  | none => exact hsteps.elim
  | some m => exact Nat.lt_of_le_of_lt h hsteps

/-- What ends leaves a later store. -/
def Grows (y : Eval Value) : Prop := ∀ σ v τ, y σ = some (v, τ) → σ.Later τ

/-- What ends after a step leaves a store that is later than the step: within the limit by `h`, and
beyond it because nothing else has happened. -/
theorem Grows.later_tick {y : Eval Value} (h : Grows y) {limit : Option Nat} {σ τ : Store}
    {v : Value} (hy : counted limit y σ = some (v, τ)) : σ.tick.Later τ := by
  by_cases hlimit : Exceeds (σ.steps + 1) limit
  · cases limit with
    | none => exact hlimit.elim
    | some n =>
        rw [counted_of_lt hlimit] at hy
        cases hy
        exact .refl _
  · rw [counted_of_not_exceeds hlimit] at hy
    exact h σ.tick v τ hy

/-- Counting a step before an evaluation that `Grows` leaves one that does, whatever the limit. -/
theorem Grows.counted {y : Eval Value} (h : Grows y) (limit : Option Nat) :
    Grows (counted limit y) := fun σ _ _ hy => (Store.Later.tick σ).trans (h.later_tick hy)

/-- Two parts that grow do so one behind the other, or the first one alone if it ends with a signal.
-/
theorem Grows.unlessSignal {y : Eval Value} {g : Value → Eval Value} (h : Grows y)
    (hnext : ∀ v, v.isSignal = false → Grows (g v)) : Grows (unlessSignal y g) := by
  intro σ v τ hy
  obtain ⟨w, ρ, hfirst, ⟨hw, heq⟩ | ⟨hw, hrest⟩⟩ := unlessSignal_eq_some hy
  · cases heq
    exact h σ v τ hfirst
  · exact (h σ w ρ hfirst).trans (hnext w hw ρ v τ hrest)

/-- A call grows if its body does: entering the scope is `Later` already, and settling the result
touches no store. -/
theorem Grows.inScope (outer : ScopeId) (names : List String) (args : List Value)
    {body : ScopeId → Eval Value} (h : ∀ scope, Grows (body scope)) :
    Grows (inScope outer names args body) := by
  intro σ v τ hy
  obtain ⟨w, ρ, hbody, heq⟩ := inScope_eq_some hy
  cases heq
  exact (Store.Later.enter σ outer names args).trans (h _ _ _ _ hbody)

/-- What is `Quiet` grows: it ends in a later store, though without a step. -/
theorem Quiet.grows {x : Eval Value} (hx : Quiet x) : Grows x := by
  intro σ v τ h
  obtain ⟨w, ρ, hends, -, hlater⟩ := hx σ
  rw [hends] at h
  cases h
  exact hlater

/-- A limited evaluation is cut: it ends with the error on step `n + 1`, and the other one, if it
ends at all, ends later. -/
structure CutShort (n : Nat) (other : Option (Value × Store)) (v : Value) (τ : Store) : Prop where
  error : v = .error (.budgetExceeded n)
  steps : τ.steps = n + 1
  later : ∀ w ρ, other = some (w, ρ) → τ.Later ρ

/-- The evaluation `x` is `y` with the limit `n`: what it ends with within the limit `y` ends with
too, and otherwise it is cut short. -/
structure InStep (n : Nat) (x y : Eval Value) : Prop where
  grows : Grows y
  agrees : ∀ σ, σ.steps ≤ n → ∀ v τ, x σ = some (v, τ) →
    τ.steps ≤ n ∧ y σ = some (v, τ) ∨ CutShort n (y σ) v τ

namespace InStep

variable {n : Nat} {limit : Option Nat}

/-- The step that exceeds the narrower limit cuts the evaluation short, and within the limit both
count it and go on `InStep`. -/
theorem counted (hlimit : AtLeast n limit) {x y : Eval Value} (h : InStep n x y) :
    InStep n (counted (some n) x) (counted limit y) := by
  refine ⟨h.grows.counted limit, fun σ hσ v τ hx => ?_⟩
  by_cases hcut : n < σ.steps + 1
  · rw [counted_of_lt hcut] at hx
    cases hx
    -- Nothing but the count has changed before the cut, and `y` counts the step too.
    refine .inr ⟨rfl, ?_, fun w ρ hy => h.grows.later_tick hy⟩
    rw [Store.steps_tick]
    omega
  · have hwide : ¬ Exceeds (σ.steps + 1) limit := fun hexceeds =>
      hcut (hlimit.lt_of_exceeds hexceeds)
    have hnarrow : ¬ Exceeds (σ.steps + 1) (some n) := hcut
    rw [counted_of_not_exceeds hnarrow] at hx
    rw [counted_of_not_exceeds hwide]
    refine h.agrees σ.tick ?_ v τ hx
    rw [Store.steps_tick]
    omega

/-- The error that cuts the first part short is a signal, so the whole is cut short there too, and
the second part is never begun. -/
theorem unlessSignal {x y : Eval Value} {f g : Value → Eval Value} (h : InStep n x y)
    (hnext : ∀ v, v.isSignal = false → InStep n (f v) (g v)) :
    InStep n (unlessSignal x f) (unlessSignal y g) := by
  have hgrows : ∀ v, v.isSignal = false → Grows (g v) := fun v hv => (hnext v hv).grows
  refine ⟨h.grows.unlessSignal hgrows, fun σ hσ v τ hx => ?_⟩
  obtain ⟨w, ρ, hfirst, hrest⟩ := unlessSignal_eq_some hx
  -- Within the limit both go on alike from `ρ`; a first part that is cut short is the whole.
  rcases h.agrees σ hσ w ρ hfirst with ⟨hρ, hy⟩ | hcut
  · rcases hrest with ⟨hw, heq⟩ | ⟨hw, hrest⟩
    · cases heq
      rw [unlessSignal_of_isSignal hy hw]
      exact .inl ⟨hρ, rfl⟩
    · rw [unlessSignal_of_value hy hw]
      exact (hnext w hw).agrees ρ hρ v τ hrest
  · rcases hrest with ⟨hw, heq⟩ | ⟨hw, -⟩
    · cases heq
      -- The other evaluation may go on behind its first part, but only to later stores.
      refine .inr ⟨hcut.error, hcut.steps, fun u μ hy => ?_⟩
      obtain ⟨u', μ', hother, ⟨-, heq⟩ | ⟨hu, hgoes⟩⟩ := unlessSignal_eq_some hy
      · cases heq
        exact hcut.later u μ hother
      · exact (hcut.later u' μ' hother).trans (hgrows u' hu μ' u μ hgoes)
    · -- The error is a signal and is not handed on.
      rw [hcut.error] at hw
      cases hw

/-- What counts no step is never cut short, so it is `InStep` with itself. -/
theorem quiet {x : Eval Value} (hx : Quiet x) : InStep n x x := by
  refine ⟨hx.grows, fun σ hσ v τ h => ?_⟩
  obtain ⟨w, ρ, hends, hsteps, -⟩ := hx σ
  rw [hends] at h
  cases h
  refine .inl ⟨?_, hends⟩
  rw [hsteps]
  exact hσ

/-- A call does not catch the error that cuts its body short: `settle` changes a returned value and
no error. -/
theorem inScope (outer : ScopeId) (names : List String) (args : List Value)
    {body body' : ScopeId → Eval Value} (h : ∀ scope, InStep n (body scope) (body' scope)) :
    InStep n (inScope outer names args body) (inScope outer names args body') := by
  refine ⟨.inScope outer names args fun scope => (h scope).grows, fun σ hσ v τ hx => ?_⟩
  obtain ⟨w, ρ, hbody, heq⟩ := inScope_eq_some hx
  cases heq
  have hsteps : (σ.enter outer names args).steps ≤ n := by
    rw [Store.steps_enter]
    exact hσ
  rcases (h _).agrees _ hsteps w _ hbody with ⟨hτ, hy⟩ | hcut
  · exact .inl ⟨hτ, inScope_of_some hy⟩
  · refine .inr ⟨?_, hcut.steps, fun u μ hy => ?_⟩
    · -- Settling an error changes nothing.
      rw [hcut.error]
      rfl
    · obtain ⟨u', μ', hother, heq⟩ := inScope_eq_some hy
      cases heq
      exact hcut.later u' _ hother

end InStep

/-- With the limit `n`, what starts within the limit ends, if the depth and the steps taken so far
exceed the limit together. Only an error comes out beyond the limit. -/
def EndsWithin (n depth : Nat) (x : Eval Value) : Prop :=
  ∀ σ, σ.steps ≤ n → n < depth + σ.steps →
    ∃ v τ, x σ = some (v, τ) ∧ σ.steps ≤ τ.steps ∧ (v.isError = true ∨ τ.steps ≤ n)

/-- What is `Quiet` ends, and within any limit that was not exceeded before. -/
theorem EndsWithin.quiet {n depth : Nat} {x : Eval Value} (hx : Quiet x) :
    EndsWithin n depth x := by
  intro σ hσ _
  obtain ⟨v, τ, hends, hsteps, hlater⟩ := hx σ
  exact ⟨v, τ, hends, hlater.steps, .inr (by omega)⟩

/-- Ending is respected by evaluation. A step makes up for a level of nesting: `depth + steps` never
falls below what the limit asks for, so the depth is never what stops an evaluation. -/
theorem congruent_endsWithin (n depth : Nat) :
    Congruent (some n) (some n) (fun _ => True) (fun x _ => EndsWithin n depth x)
      (fun x _ => EndsWithin n (depth + 1) x) where
  hereditary := hereditary_true
  weaken h σ hσ hdepth := h σ hσ (by omega)
  counted {x _} h σ hσ hdepth := by
    by_cases hcut : n < σ.steps + 1
    · -- The step exceeds the limit, and the evaluation ends at once.
      exact ⟨_, _, counted_of_lt hcut, Nat.le_succ _, .inl rfl⟩
    · have hwithin : ¬ Exceeds (σ.steps + 1) (some n) := hcut
      have hends := h σ.tick (by rw [Store.steps_tick]; omega) (by rw [Store.steps_tick]; omega)
      obtain ⟨v, τ, hx, hsteps, hv⟩ := hends
      rw [counted_of_not_exceeds hwithin]
      exact ⟨v, τ, hx, Nat.le_of_succ_le hsteps, hv⟩
  unlessSignal {x _ f _} h hnext σ hσ hdepth := by
    obtain ⟨v, τ, hx, hsteps, hv⟩ := h σ hσ hdepth
    cases hsignal : v.isSignal with
    | true => exact ⟨v, τ, unlessSignal_of_isSignal hx hsignal, hsteps, hv⟩
    | false =>
        rw [unlessSignal_of_value hx hsignal]
        -- No error has come out, so that the rest starts within the limit too.
        have hτ : τ.steps ≤ n := hv.resolve_left fun herror => by
          cases v with
          | error => cases hsignal
          | _ => cases herror
        obtain ⟨w, ρ, hrest, hmore, hw⟩ := hnext v hsignal trivial τ hτ (by omega)
        exact ⟨w, ρ, hrest, Nat.le_trans hsteps hmore, hw⟩
  primitive hx := .quiet hx.quiet
  returned {v} _ := .quiet (quiet_pure (.returned v))
  inScope outer names args body _ _ h σ hσ hdepth := by
    have hsteps := Store.steps_enter σ outer names args
    obtain ⟨v, τ, hbody, hτ, hv⟩ := h σ.scopes.size (σ.enter outer names args) (by omega) (by omega)
    refine ⟨v.settle, τ, inScope_of_some hbody, by omega, hv.imp_left fun herror => ?_⟩
    -- An error stays one when the call settles it.
    cases v with
    | error => rfl
    | _ => cases herror

/-! ### Runs -/

namespace Program

variable {p : Program} {n : Nat} {scope : ScopeId} {σ τ : Store} {v : Value}

/-- A run with a limit ends within one level more than the limit, from any store.
`congruent_endsWithin` for programs. -/
theorem exists_run_of_limit (p : Program) (n : Nat) (scope : ScopeId) (σ : Store) :
    ∃ v τ, p.run (some n) (n + 1) scope σ = some (v, τ) := by
  have hzero : EndsWithin n 0 failure := fun σ hσ hdepth => by omega
  have hblock := Congruent.blockAt (R := fun depth x _ => EndsWithin n depth x)
    (congruent_endsWithin n) hzero (n + 1) scope p.statements
  obtain ⟨v, τ, hends, -, -⟩ := hblock σ.rewind (Nat.zero_le n) (by rw [Store.steps_rewind]; omega)
  exact ⟨v.settle, τ, run_eq_some.2 ⟨v, hends, rfl⟩⟩

end Program

end Monkey
