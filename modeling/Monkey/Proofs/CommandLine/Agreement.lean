import Monkey.CommandLine.Execute
import Monkey.Expr.Equality
import Monkey.Proofs.Eval.Budget
import Monkey.Proofs.Eval.Succession
import Monkey.Proofs.Syntax.RoundTrip

/-!
# `Monkey.Proofs.CommandLine.Agreement`: the commands on files agree

Checking a file, running it and interpreting its text are three ways to
ask for the same things, and their answers fit together: one parser says
whether the text is a program and what is wrong with it otherwise, and one
evaluation says what the program prints and ends with.

* `Report.Runs` says what a run reports, without a depth.
  `Report.runs_iff_of_ok` and `Report.runs_iff_of_error` say when.
* `Program.parse_output` reads back what a check has put out.
* `Report.commands_agree` is the result.
-/

set_option autoImplicit false

namespace Monkey

/-! ### Canonical output -/

/-- A line feed behind a text is no part of it, by `scan_append_lineFeed` with nothing behind the
line feed. -/
theorem lexemes_append_lineFeed (text : String) :
    (tokenize (text ++ "\n")).lexemes = (tokenize text).lexemes := by
  rw [lexemes_tokenize, lexemes_tokenize]
  have htext : (text ++ "\n").toList = text.toList ++ '\n' :: [] := String.toList_append
  rw [htext, scan_append_lineFeed, scan_nil, List.append_nil]

/-- The canonical text of a program that has been read, with a line feed behind it, is read as that
program: `Program.parse_render_of_spellable`, and `lexemes_append_lineFeed` for the line feed. -/
theorem Program.parse_output {text : String} {p : Program} (h : Program.parse text = .ok p) :
    Program.parse (p.render ++ "\n") = .ok p := by
  have hspellable : Statement.SpellableList p.statements := by
    rw [← (Program.parse_eq_ok_iff.1 h).2]
    exact Survey.spellable_ofText text
  have hrender := Program.written_of_parse (Program.parse_render_of_spellable hspellable)
  refine Program.parse_of_written ?_
  rw [lexemes_append_lineFeed]
  exact hrender

/-! ### A new scope of an empty store -/

/-- The program, run in a new scope of an empty store, ends with the value `v` and the store `τ`. -/
def Program.EndsAfresh (p : Program) (limit : Option Nat) (v : Value) (τ : Store) : Prop :=
  p.Ends limit (Store.empty.addScope none).1 (Store.empty.addScope none).2 v τ

namespace CommandLine

/-- Where the steps are limited, the depth does not count, and otherwise it may be as large as need
be. So `evaluate`, which derives a depth from the limit, ends as `EndsAfresh` says. -/
theorem evaluate_iff_endsAfresh {p : Program} {maxSteps : Option Nat} {v : Value} {τ : Store} :
    (∃ depth, evaluate p maxSteps depth = some (v, τ)) ↔ p.EndsAfresh maxSteps v τ := by
  constructor
  · rintro ⟨depth, h⟩
    exact ⟨depthFor maxSteps depth, h⟩
  · intro h
    cases maxSteps with
    | none => exact h
    | some n =>
        obtain ⟨w, ρ, hrun⟩ := Program.exists_run_of_limit p n (Store.empty.addScope none).1
          (Store.empty.addScope none).2
        obtain ⟨rfl, rfl⟩ := h.unique ⟨n + 1, hrun⟩
        exact ⟨0, hrun⟩

namespace Report

/-- What is reported of a text that has left the store `τ`: behind what has been printed the value,
or apart from it why there is none. -/
def ofResult (τ : Store) : Except Failure Value → Report
  | .ok v => ⟨τ.printed ++ v.inspect ++ "\n", "", 0⟩
  | .error f => ⟨τ.printed, f.message ++ "\n", 1⟩

/-- A value that is no error is reported behind what has been printed, with exit code zero, for
`toResult` makes no failure of it. -/
theorem ofResult_of_value {v : Value} (τ : Store) (hv : v.isError = false) :
    ofResult τ v.toResult = ⟨τ.printed ++ v.inspect ++ "\n", "", 0⟩ := by
  cases v with
  | error => cases hv
  | _ => rfl

/-- Running the text ends with the report. -/
def Runs (text : String) (maxSteps : Option Nat) (r : Report) : Prop :=
  ∃ depth, Report.ofRun (.ok text) maxSteps depth = some r

section Texts

variable {text : String} {p : Program} {maxSteps : Option Nat} {r : Report}

/-- Running the text of a program reports what its evaluation comes to, by `ofResult`. The file has
been read, and the parser has nothing to complain of. -/
theorem ofRun_of_ok (h : Program.parse text = .ok p) (depth : Nat) :
    Report.ofRun (.ok text) maxSteps depth =
      (evaluate p maxSteps depth).map fun a => ofResult a.2 a.1.toResult := by
  unfold Report.ofRun
  dsimp only
  rw [h]
  show (evaluate p maxSteps depth).bind _ = _
  cases evaluate p maxSteps depth with
  | none => rfl
  | some a =>
      obtain ⟨v, τ⟩ := a
      cases v <;> rfl

/-- A run of the text of a program has just the reports of the ways in which the program ends, at
any depth that suffices. -/
theorem runs_iff_of_ok (h : Program.parse text = .ok p) :
    Runs text maxSteps r ↔ ∃ v τ, p.EndsAfresh maxSteps v τ ∧ r = ofResult τ v.toResult := by
  constructor
  · rintro ⟨depth, hrun⟩
    rw [ofRun_of_ok h, Option.map_eq_some_iff] at hrun
    obtain ⟨⟨v, τ⟩, hends, rfl⟩ := hrun
    exact ⟨v, τ, evaluate_iff_endsAfresh.1 ⟨depth, hends⟩, rfl⟩
  · rintro ⟨v, τ, hends, rfl⟩
    obtain ⟨depth, heval⟩ := evaluate_iff_endsAfresh.2 hends
    refine ⟨depth, ?_⟩
    rw [ofRun_of_ok h, heval, Option.map_some]

/-- A program that ends in a way is reported in that way only, since `EndsAfresh` determines value
and store. -/
theorem runs_iff_of_endsAfresh {v : Value} {τ : Store} (h : Program.parse text = .ok p)
    (hends : p.EndsAfresh maxSteps v τ) : Runs text maxSteps r ↔ r = ofResult τ v.toResult := by
  rw [runs_iff_of_ok h]
  constructor
  · rintro ⟨w, ρ, hother, rfl⟩
    obtain ⟨rfl, rfl⟩ := hother.unique hends
    rfl
  · intro hr
    exact ⟨v, τ, hends, hr⟩

/-- A malformed text is not evaluated: at every depth `ofRun` reports its diagnostics, and nothing
has been printed. -/
theorem runs_iff_of_error {diagnostics : List Diagnostic}
    (h : Program.parse text = .error diagnostics) :
    Runs text maxSteps r ↔ r = .failure "" (.malformed diagnostics) := by
  have hrun (depth : Nat) : Report.ofRun (.ok text) maxSteps depth =
      some (.failure "" (.malformed diagnostics)) := by
    unfold Report.ofRun
    dsimp only
    rw [h]
  constructor
  · rintro ⟨depth, hr⟩
    rw [hrun] at hr
    exact (Option.some.inj hr).symm
  · rintro rfl
    exact ⟨0, hrun 0⟩

/-- A check of the text of a program puts out its canonical text and a line feed, with exit code
zero. -/
theorem ofCheck_of_ok (h : Program.parse text = .ok p) :
    Report.ofCheck (.ok text) false = ⟨p.render ++ "\n", "", 0⟩ := by
  unfold Report.ofCheck
  dsimp only
  rw [h]
  show Report.success ("" ++ p.render ++ "\n") = _
  rw [String.empty_append]
  rfl

/-- A check of a malformed text reports its diagnostics as a failure, which `Report.failure` writes
apart from the output. -/
theorem ofCheck_of_error {diagnostics : List Diagnostic}
    (h : Program.parse text = .error diagnostics) :
    Report.ofCheck (.ok text) false = .failure "" (.malformed diagnostics) := by
  unfold Report.ofCheck
  dsimp only
  rw [h]
  rfl

/-- A check says by its exit code whether the text is a program. Both answers of `Program.parse` are
gone through. -/
theorem code_ofCheck_eq_zero_iff :
    (Report.ofCheck (.ok text) false).code = 0 ↔ ∃ p, Program.parse text = .ok p := by
  cases h : Program.parse text with
  | ok p =>
      rw [ofCheck_of_ok h]
      exact ⟨fun _ => ⟨p, rfl⟩, fun _ => rfl⟩
  | error diagnostics =>
      rw [ofCheck_of_error h]
      constructor
      · rintro ⟨⟩
      · rintro ⟨p, ⟨⟩⟩

/-- With a limit on the steps a run of a program has a report at every depth, because `evaluate`
goes as deep as the limit allows of itself. -/
theorem exists_ofRun_of_limit (h : Program.parse text = .ok p) (n depth : Nat) :
    ∃ v τ r, p.EndsAfresh (some n) v τ ∧ Report.ofRun (.ok text) (some n) depth = some r := by
  obtain ⟨v, τ, hrun⟩ := Program.exists_run_of_limit p n (Store.empty.addScope none).1
    (Store.empty.addScope none).2
  refine ⟨v, τ, ofResult τ v.toResult, ⟨n + 1, hrun⟩, ?_⟩
  have heval : evaluate p (some n) depth = some (v, τ) := hrun
  rw [ofRun_of_ok h, heval, Option.map_some]

/-- The tokens are listed in front of what is put out without them, and neither the complaints nor
the exit code differ. -/
theorem ofCheck_tokens (text : String) :
    Report.ofCheck (.ok text) true =
      { Report.ofCheck (.ok text) false with
        output := tokenListing text ++ (Report.ofCheck (.ok text) false).output } := by
  cases h : Program.parse text with
  | ok p =>
      rw [ofCheck_of_ok h]
      unfold Report.ofCheck
      dsimp only
      rw [h]
      show Report.success (tokenListing text ++ p.render ++ "\n") = _
      rw [String.append_assoc]
      rfl
  | error diagnostics =>
      rw [ofCheck_of_error h]
      unfold Report.ofCheck
      dsimp only
      rw [h]
      -- Nothing else is put out for a malformed text.
      show Report.failure (tokenListing text) _ = ⟨tokenListing text ++ "", _, _⟩
      rw [String.append_empty]
      rfl

end Texts

end Report

/-- The end of the text stands last in the list of its tokens, on the line that is reached there.
`Lexer.endLine_tokens` counts the line feeds. -/
theorem tokenListing_eq (text : String) :
    tokenListing text =
      String.join ((tokenize text).tokens.map fun t =>
        lineNumber t.line ++ " " ++ t.lexeme.describe ++ "\n") ++
      (lineNumber (1 + text.toList.count '\n') ++ " end of input\n") := by
  have hline : (tokenize text).endLine = 1 + text.toList.count '\n' :=
    Lexer.endLine_tokens text.toList 1
  have hfinish : lineNumber (tokenize text).finish.line ++ " " ++
      (tokenize text).finish.describe ++ "\n" =
        lineNumber (tokenize text).endLine ++ " end of input\n" := by
    rw [String.append_assoc, String.append_assoc]
    have hwords : " " ++ ("end of input" ++ "\n") = " end of input\n" := by decide
    exact congrArg (lineNumber (tokenize text).endLine ++ ·) hwords
  rw [tokenListing, TokenStream.found, List.map_append, String.join_append, List.map_map,
    List.map_singleton, String.join_cons, String.join_nil, String.append_empty, hfinish, hline]
  rfl

/-- Without a limit, a run reports what interpreting the text in a new scope comes to. Both parse
first, and `interprets_iff_ends` relates what they do with a program. -/
theorem Report.runs_none_iff {text : String} {r : Report} :
    Runs text none r ↔ ∃ result τ, Interprets (Store.empty.addScope none).1 text
      (Store.empty.addScope none).2 result τ ∧ r = ofResult τ result := by
  cases h : Program.parse text with
  | ok p =>
      rw [runs_iff_of_ok h]
      constructor
      · rintro ⟨v, τ, hends, rfl⟩
        exact ⟨v.toResult, τ, (interprets_iff_ends h).2 ⟨v, hends, rfl⟩, rfl⟩
      · rintro ⟨result, τ, hinterprets, rfl⟩
        obtain ⟨v, hends, rfl⟩ := (interprets_iff_ends h).1 hinterprets
        exact ⟨v, τ, hends, rfl⟩
  | error diagnostics =>
      rw [runs_iff_of_error h]
      -- Interpreting the text fails at every depth, so that the two sides have one report each.
      have hinterpret (depth : Nat) (scope : ScopeId) (σ : Store) :
          interpret depth scope text σ = some (.error (.malformed diagnostics), σ) := by
        unfold interpret
        rw [h]
        rfl
      constructor
      · rintro rfl
        exact ⟨_, _, ⟨0, hinterpret 0 _ _⟩, rfl⟩
      · rintro ⟨result, τ, ⟨depth, hother⟩, rfl⟩
        rw [hinterpret] at hother
        cases hother
        rfl

/-- The commands on a file and the interpretation of its text agree, with a limit on the steps and
without one.

A text is checked with the exit code zero exactly when it is a program. Then its canonical text is
put out, which is checked with the same output again. A run of it reports what the program, run in a
new scope of an empty store, has printed, and behind that its value or apart from that its error; if
the steps are limited there is always such a report, at any depth. Interpreting the text comes to
the same as running it without a limit.

If the text is no program, the check and the run report the same, which is every diagnostic in order
and nothing else. The tokens, if they are asked for, are listed in front of either output.

Each part is one of the lemmas above; that the canonical text is checked with the same output is
`Program.parse_output`. -/
theorem Report.commands_agree (text : String) (maxSteps : Option Nat) :
    ((Report.ofCheck (.ok text) false).code = 0 ↔ ∃ p, Program.parse text = .ok p) ∧
    (∀ p, Program.parse text = .ok p →
      Report.ofCheck (.ok text) false = ⟨p.render ++ "\n", "", 0⟩ ∧
      Report.ofCheck (.ok (p.render ++ "\n")) false = ⟨p.render ++ "\n", "", 0⟩ ∧
      (∀ v τ, p.EndsAfresh maxSteps v τ → v.isError = false → ∀ r,
        (Runs text maxSteps r ↔ r = ⟨τ.printed ++ v.inspect ++ "\n", "", 0⟩)) ∧
      (∀ fault τ, p.EndsAfresh maxSteps (.error fault) τ → ∀ r,
        (Runs text maxSteps r ↔
          r = ⟨τ.printed, "runtime error: " ++ fault.message ++ "\n", 1⟩)) ∧
      (∀ r, Runs text maxSteps r → ∃ v τ, p.EndsAfresh maxSteps v τ) ∧
      (maxSteps.isSome → ∀ depth, ∃ v τ r, p.EndsAfresh maxSteps v τ ∧
        Report.ofRun (.ok text) maxSteps depth = some r)) ∧
    (∀ diagnostics, Program.parse text = .error diagnostics →
      diagnostics = (Survey.ofText text).diagnostics ∧ diagnostics ≠ [] ∧
      let complaints := "parser error:\n" ++
        "\n".intercalate (diagnostics.map fun d => "  " ++ d.render) ++ "\n"
      Report.ofCheck (.ok text) false = ⟨"", complaints, 1⟩ ∧
        ∀ r, (Runs text maxSteps r ↔ r = ⟨"", complaints, 1⟩)) ∧
    (∀ r, (Runs text none r ↔ ∃ result τ, Interprets (Store.empty.addScope none).1 text
      (Store.empty.addScope none).2 result τ ∧ r = ofResult τ result)) ∧
    Report.ofCheck (.ok text) true =
      { Report.ofCheck (.ok text) false with
        output := String.join ((tokenize text).tokens.map fun t =>
            lineNumber t.line ++ " " ++ t.lexeme.describe ++ "\n") ++
          (lineNumber (1 + text.toList.count '\n') ++ " end of input\n") ++
          (Report.ofCheck (.ok text) false).output } := by
  refine ⟨code_ofCheck_eq_zero_iff, fun p h => ?_, fun diagnostics h => ?_,
    fun r => runs_none_iff, ?_⟩
  · refine ⟨ofCheck_of_ok h, ofCheck_of_ok (Program.parse_output h), ?_, ?_, ?_, ?_⟩
    -- A value, an error, any report at all, and a report where the steps are limited.
    · intro v τ hends hv r
      rw [runs_iff_of_endsAfresh h hends, ofResult_of_value τ hv]
    · intro fault τ hends r
      rw [runs_iff_of_endsAfresh h hends]
      rfl
    · intro r hr
      obtain ⟨v, τ, hends, -⟩ := (runs_iff_of_ok h).1 hr
      exact ⟨v, τ, hends⟩
    · intro hlimit depth
      obtain ⟨n, rfl⟩ := Option.isSome_iff_exists.1 hlimit
      exact exists_ofRun_of_limit h n depth
  · obtain ⟨hdiagnostics, hsome⟩ := Program.parse_eq_error_iff.1 h
    refine ⟨hdiagnostics.symm, hsome, ofCheck_of_error h, fun r => ?_⟩
    rw [runs_iff_of_error h]
    rfl
  · rw [ofCheck_tokens, tokenListing_eq]

/-- A minus sign on the second line makes one expression of both, which prints and is then an error.
Of a text that is no program a run says what a check says. -/
theorem Report.commands_agree_of_difference :
    let text := "puts(1)\n-true"
    let broken := "let = 5\n)"
    let complaints := "parser error:\n  line 1: expected identifier, found '='\n"
    Report.ofCheck (.ok text) false = ⟨"(puts(1) - true)\n", "", 0⟩ ∧
      Report.ofCheck (.ok "(puts(1) - true)\n") false = ⟨"(puts(1) - true)\n", "", 0⟩ ∧
      (∀ r, (Runs text (some 20) r ↔
        r = ⟨"1\n", "runtime error: type mismatch: NULL - BOOLEAN\n", 1⟩)) ∧
      Report.ofCheck (.ok broken) false = ⟨"", complaints, 1⟩ ∧
      ∀ r, (Runs broken none r ↔ r = ⟨"", complaints, 1⟩) := by
  intro text broken complaints
  let p : Program := ⟨[.expression
    (.binary .subtract (.call (.identifier "puts") [.integer 1]) (.boolean true))]⟩
  have hdiagnostics : (Survey.ofText text).diagnostics = [] := by
    subst text
    decide +kernel
  have hstatements : (Survey.ofText text).statements = p.statements := by
    subst text p
    decide +kernel
  have hparse : Program.parse text = .ok p :=
    Program.parse_eq_ok_iff.2 ⟨hdiagnostics, hstatements⟩
  have hrender : p.render ++ "\n" = "(puts(1) - true)\n" := by
    subst p
    cbv
  -- What is printed before the error is reported with it.
  have hends : ((evaluate p (some 20) 0).map fun a => (a.1.isError, ofResult a.2 a.1.toResult)) =
      some (true, ⟨"1\n", "runtime error: type mismatch: NULL - BOOLEAN\n", 1⟩) := by
    subst p
    decide +kernel
  have hsurvey : (Survey.ofText broken).diagnostics =
      [⟨.identifier, ⟨some (.symbol .assign), 1⟩⟩] := by
    subst broken
    decide +kernel
  have hbroken : Program.parse broken = .error [⟨.identifier, ⟨some (.symbol .assign), 1⟩⟩] :=
    Program.parse_eq_error_iff.2 ⟨hsurvey, List.cons_ne_nil _ _⟩
  obtain ⟨⟨v, τ⟩, heval, hshown⟩ := Option.map_eq_some_iff.1 hends
  obtain ⟨hv, hreport⟩ := Prod.mk.inj hshown
  cases v with
  | error fault =>
      obtain ⟨-, hok, -⟩ := commands_agree text (some 20)
      obtain ⟨hcheck, hagain, -, hfault, -⟩ := hok p hparse
      obtain ⟨-, -, herror, -⟩ := commands_agree broken none
      obtain ⟨-, -, hchecked, hruns⟩ := herror _ hbroken
      have hfaulty := hfault _ τ (evaluate_iff_endsAfresh.1 ⟨0, heval⟩)
      rw [hrender] at hcheck hagain
      exact ⟨hcheck, hagain, hreport ▸ hfaulty, hchecked, hruns⟩
  | _ => cases hv

end CommandLine

end Monkey
