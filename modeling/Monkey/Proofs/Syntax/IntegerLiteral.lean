import Mathlib.Data.List.Induction
import Mathlib.Data.Nat.Digits.Defs
import Monkey.Expr.Printer
import Monkey.Proofs.Syntax.Acceptance
import Monkey.Proofs.Syntax.SourceOrder
import Monkey.Proofs.Syntax.Viability
import Monkey.Proofs.Text.Digits
import Monkey.Proofs.Text.Lines

/-!
# `Monkey.Proofs.Syntax.IntegerLiteral`: integers are read exactly

A text of digits alone is one literal, however long it is and however many
zeros it starts with. What the digits stand for is said by their places, each
counting with its power of ten (`Numeral.decimal`), and the running value that
a literal is read with comes to the same (`Numeral.value_eq_decimal`).

* `tokenize_digits` says that the text is a single token, and
  `Survey.entries_of_last` what becomes of one that is given up.
* `Program.parse_digits_of_small` and `Program.parse_digits_of_large` are what
  is made of it on either side of two to the power of 63.
* `Program.parse_digits` is the result, with the text of an integer as a case.
-/

set_option autoImplicit false

namespace Monkey

/-! ### What digits stand for -/

namespace Numeral

/-- The number that decimal digits stand for, the first one being that of the highest place. -/
def decimal (digits : List Char) : Nat :=
  Nat.ofDigits 10 (digits.reverse.map fun c => c.toNat - '0'.toNat)

/-- One more digit behind the others leaves each of them a place higher. `Nat.ofDigits` wants the
digit of the lowest place first, hence the reversal that this lemma takes away. -/
theorem decimal_concat (digits : List Char) (c : Char) :
    decimal (digits ++ [c]) = 10 * decimal digits + (c.toNat - '0'.toNat) := by
  unfold decimal
  rw [List.reverse_concat, List.map_cons, Nat.ofDigits_cons]
  exact Nat.add_comm _ _

/-- The running value of digits is what they stand for: `Numeral.value`, a fold from the left,
agrees with `decimal`. By induction from the end of the list, a digit at a time by `decimal_concat`.
-/
theorem value_eq_decimal (digits : List Char) : value digits = decimal digits := by
  induction digits using List.reverseRecOn with
  | nil => rfl
  | append_singleton digits c ih =>
      rw [decimal_concat, ← ih, value, List.foldl_append]
      rfl

end Numeral

/-! ### Reading digits -/

variable {digits : String}

/-- A text of digits is a single token on the first line. Its lexeme has the digits as they are,
leading zeros included. -/
theorem tokenize_digits (hne : digits ≠ "") (hdigits : ∀ c ∈ digits.toList, c.isDigit = true) :
    tokenize digits = ⟨[⟨.integer digits, 1⟩], 1⟩ := by
  cases hchars : digits.toList with
  | nil => exact absurd (String.toList_eq_nil_iff.1 hchars) hne
  | cons c run =>
      rw [hchars] at hdigits
      obtain ⟨hc, hrun⟩ := List.forall_mem_cons.1 hdigits
      have hread : Lexeme.read c run = (.integer digits, []) := by
        have hread : Lexeme.read c (run ++ []) = (.integer (String.ofList (c :: run)), []) :=
          Lexeme.read_of_digits hc hrun nofun
        rw [List.append_nil, ← hchars, String.ofList_toList] at hread
        exact hread
      rw [tokenize, Lexer.ofText, hchars,
        Lexer.tokens_cons (Lexeme.isBlank_of_class hc rfl), hread, Lexer.tokens_nil]

/-- There is no integer for digits exactly when their value is too large: `Numeral.bound` is the
only thing `read?` checks. -/
theorem Numeral.read?_eq_none_iff : read? digits = none ↔ bound ≤ value digits.toList := by
  unfold read?
  dsimp only
  split
  · rename_i hsmall
    simpa using hsmall
  · rename_i hlarge
    simpa using hlarge

/-- Digits that stand for an integer are read as that integer. The value is given through `toInt`,
so the statement does not mention how an `Int64` is built from a number. -/
theorem Program.parse_digits_of_small (hne : digits ≠ "")
    (hdigits : ∀ c ∈ digits.toList, c.isDigit = true)
    (hsmall : Numeral.decimal digits.toList < 2 ^ 63) :
    ∃ v : Int64, v.toInt = Numeral.decimal digits.toList ∧
      Program.parse digits = .ok ⟨[.expression (.integer v)]⟩ := by
  rw [← Numeral.value_eq_decimal] at hsmall ⊢
  refine ⟨Int64.ofNat (Numeral.value digits.toList), Int64.toInt_ofNat_of_lt hsmall, ?_⟩
  have hlexemes : (tokenize digits).lexemes = [.integer digits] := by
    rw [tokenize_digits hne hdigits]
    rfl
  refine Program.parse_of_written ?_
  rw [hlexemes]
  exact .bare (.expression (.integer digits hsmall)) standsApart_nil .nil

/-- What is given up on the last token of a text is all that there is: `recover` stays on it, and
behind it the text ends. -/
theorem Survey.entries_of_last {c : Cursor} {t : Lexeme} {d : Diagnostic}
    (hcurrent : c.current = some t) (hlast : c.next.current = none)
    (hparse : Statement.parse c = .failed d c) :
    (Survey.ofCursor c).entries = [.malformed d c c] := by
  have hend : c.recover.next.current = none := by
    by_contra hmore
    exact c.reaches_recover.next_next.current_ne_none hmore hlast
  rw [ofCursor_of_some hcurrent, hparse]
  dsimp only
  rw [ofCursor_of_none hend]
  rfl

/-- Digits that stand for too large a number are told of as they are, and nothing else is: one
diagnostic with the digits as found, and no statement beside it. -/
theorem Program.parse_digits_of_large (hne : digits ≠ "")
    (hdigits : ∀ c ∈ digits.toList, c.isDigit = true)
    (hlarge : 2 ^ 63 ≤ Numeral.decimal digits.toList) :
    (Survey.ofText digits).statements = [] ∧
      Program.parse digits = .error [⟨.integer, ⟨some (.integer digits), 1⟩⟩] := by
  rw [← Numeral.value_eq_decimal] at hlarge
  have hread : Numeral.read? digits = none := Numeral.read?_eq_none_iff.2 hlarge
  have htext : Survey.ofText digits = .ofCursor (.start ⟨[⟨.integer digits, 1⟩], 1⟩) := by
    rw [Survey.ofText, tokenize_digits hne hdigits]
  -- With the place left open the parser's equations rewrite; what is known of it are the three
  -- facts below.
  generalize hc : Cursor.start ⟨[⟨.integer digits, 1⟩], 1⟩ = c at htext
  have hcurrent : c.current = some (.integer digits) := hc ▸ rfl
  have hlast : c.next.current = none := hc ▸ rfl
  have hhere : c.here = ⟨some (.integer digits), 1⟩ := hc ▸ rfl
  have hparse : Statement.parse c = .failed ⟨.integer, c.here⟩ c := by
    rw [Statement.parse_eq, hcurrent]
    dsimp only
    rw [Expr.parse_eq, Expr.parseOperand_eq, hcurrent]
    dsimp only
    rw [hread]
    rfl
  have hentries := Survey.entries_of_last hcurrent hlast hparse
  rw [hhere, ← htext] at hentries
  have hdiagnostics : (Survey.ofText digits).diagnostics =
      [⟨.integer, ⟨some (.integer digits), 1⟩⟩] := by
    rw [Survey.diagnostics, hentries]
    rfl
  refine ⟨?_, Program.parse_eq_error_iff.2 ⟨hdiagnostics, List.cons_ne_nil _ _⟩⟩
  rw [Survey.statements, hentries]
  rfl

/-- A text of digits is read as the integer that the digits stand for, if that is less than two to
the power of 63, and otherwise it gives a single diagnostic, which has them as they are. So every
integer that is not negative is read back from its text `Expr.render`. -/
theorem Program.parse_digits :
    (∀ digits : String, digits ≠ "" → (∀ c ∈ digits.toList, c.isDigit = true) →
      (Numeral.decimal digits.toList < 2 ^ 63 →
        ∃ v : Int64, v.toInt = Numeral.decimal digits.toList ∧
          Program.parse digits = .ok ⟨[.expression (.integer v)]⟩) ∧
      (2 ^ 63 ≤ Numeral.decimal digits.toList →
        (Survey.ofText digits).statements = [] ∧
          Program.parse digits = .error [⟨.integer, ⟨some (.integer digits), 1⟩⟩])) ∧
    ∀ v : Int64, 0 ≤ v →
      Program.parse (Expr.integer v).render = .ok ⟨[.expression (.integer v)]⟩ := by
  refine ⟨?_, ?_⟩
  · intro digits hne hdigits
    exact ⟨parse_digits_of_small hne hdigits, parse_digits_of_large hne hdigits⟩
  · intro v hv
    obtain ⟨hchars, hdigits⟩ := Numeral.genuine_write hv
    have hne : Numeral.write v ≠ "" := by
      rintro hempty
      rw [hempty] at hchars
      exact hchars rfl
    -- The rendered integer is a text of digits like any other, and its value is the integer it came
    -- from.
    have hvalue : Numeral.decimal (Numeral.write v).toList = v.toNatClampNeg := by
      rw [← Numeral.value_eq_decimal, Numeral.value_write hv]
    have hsmall : Numeral.decimal (Numeral.write v).toList < 2 ^ 63 := by
      rw [hvalue]
      exact Int64.toNatClampNeg_lt v
    obtain ⟨u, hu, hparse⟩ := parse_digits_of_small hne hdigits hsmall
    have huv : u = v := by
      refine Int64.toInt_inj.1 ?_
      have hnonneg : 0 ≤ v.toInt := Int64.le_iff_toInt_le.1 hv
      rw [hu, hvalue, ← Int64.toNat_toInt, Int.toNat_of_nonneg hnonneg]
    rw [huv] at hparse
    rw [Expr.render]
    exact hparse

/-- Four zeros in front of the largest integer make no difference, and the next number is too large;
with a text that is rendered, every part of `parse_digits` is used. -/
theorem Program.parse_digits_of_leading_zeros :
    (∃ v : Int64, v.toInt = 9223372036854775807 ∧
      Program.parse "00009223372036854775807" = .ok ⟨[.expression (.integer v)]⟩) ∧
    Program.parse "9223372036854775808" =
      .error [⟨.integer, ⟨some (.integer "9223372036854775808"), 1⟩⟩] ∧
    Program.parse (Expr.integer 42).render = .ok ⟨[.expression (.integer 42)]⟩ := by
  obtain ⟨hdigits, hwritten⟩ := Program.parse_digits
  obtain ⟨hsmall, -⟩ := hdigits "00009223372036854775807" (by decide)
    (List.all_eq_true.1 (by decide +kernel))
  obtain ⟨-, hlarge⟩ := hdigits "9223372036854775808" (by decide)
    (List.all_eq_true.1 (by decide +kernel))
  have hvalue : Numeral.decimal "00009223372036854775807".toList = 9223372036854775807 := by
    decide +kernel
  have hvalue' : Numeral.decimal "9223372036854775808".toList = 9223372036854775808 := by
    decide +kernel
  obtain ⟨v, hv, hparse⟩ := hsmall (by rw [hvalue]; decide)
  rw [hvalue] at hv
  exact ⟨⟨v, hv, hparse⟩, (hlarge (by rw [hvalue']; decide)).2, hwritten 42 (by decide)⟩

end Monkey
