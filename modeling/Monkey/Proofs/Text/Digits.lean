import Monkey.Numeral
import Monkey.Proofs.Text.Scan

/-!
# `Monkey.Proofs.Text.Digits`: decimal text of integers is read back

The text of an integer that is not negative is a run of digits whose value
is that integer. A negative integer has a text too, but no literal: its
minus sign is an operator.
-/

set_option autoImplicit false

namespace Monkey.Numeral

/-- The text of an integer that is not negative is the decimal text of a natural number: `write`
adds a sign to negative ones only, and `Int64.toNat_toInt` takes the number over. -/
theorem toList_write {n : Int64} (h : 0 ≤ n) :
    (write n).toList = Nat.toDigits 10 n.toNatClampNeg := by
  have hn : 0 ≤ n.toInt := Int64.le_iff_toInt_le.1 h
  rw [write, Int.toString_eq_repr, Int.repr_eq_if, if_pos hn, Int64.toNat_toInt, Nat.toList_repr]

/-- The value of a run of digits is the number that the digits stand for. Core's
`Nat.ofDigitChars_toDigits` says so of `value`, which is the same function at base ten. -/
theorem value_toDigits (n : Nat) : value (Nat.toDigits 10 n) = n :=
  Nat.ofDigitChars_toDigits (by decide) (by decide)

/-- The text of an integer that is not negative has that integer as its value, by `toList_write` and
`value_toDigits`. So a printed literal can be read back. -/
theorem value_write {n : Int64} (h : 0 ≤ n) : value (write n).toList = n.toNatClampNeg := by
  rw [toList_write h, value_toDigits]

/-- The text of an integer that is not negative is a `Genuine` literal: it has a digit, and only
digits. A negative integer has none, as its text begins with an operator. -/
theorem genuine_write {n : Int64} (h : 0 ≤ n) : (Lexeme.integer (write n)).Genuine := by
  rw [Lexeme.Genuine, toList_write h]
  exact ⟨Nat.toDigits_ne_nil, fun c hc => Nat.isDigit_of_mem_toDigits (by decide) (by decide) hc⟩

end Monkey.Numeral
