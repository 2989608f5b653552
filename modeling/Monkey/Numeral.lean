/-!
# `Monkey.Numeral`: decimal text of integers

Integers are 64-bit and signed. A literal is a run of decimal digits,
of any length, and stands for an integer when its value is below
`2 ^ 63`; there are no negative literals. An integer is written in
decimal without leading zeros, a negative one with a minus sign.
-/

set_option autoImplicit false

namespace Monkey.Numeral

/-- The value of a run of decimal digits, most significant digit first. -/
def value (digits : List Char) : Nat :=
  digits.foldl (fun n c => 10 * n + (c.toNat - '0'.toNat)) 0

/-- The least natural number that is too large for an integer, two to the power of 63. -/
def bound : Nat := 9223372036854775808

/-- The integer that a run of digits stands for, if it is small enough. -/
def read? (digits : String) : Option Int64 :=
  let n := value digits.toList
  if n < bound then some (Int64.ofNat n) else none

/-- The decimal text of an integer. -/
def write (n : Int64) : String := toString n.toInt

end Monkey.Numeral
