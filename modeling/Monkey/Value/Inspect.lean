import Monkey.Expr.Printer
import Monkey.Value

/-!
# `Monkey.Value.Inspect`: how values are shown

A string is shown as it is, an array and a hash with brackets and their
members in order, a function as its own source text, and an error by its
message. A host sees the same text, but a string in quotes.
-/

set_option autoImplicit false

namespace Monkey

mutual

/-- The text of a value as a user sees it. -/
def Value.inspect : Value → String
  | .integer n => Numeral.write n
  | .boolean b => if b then "true" else "false"
  | .string content => content
  | .null => "null"
  | .array _ elements => "[" ++ ", ".intercalate (Value.inspectList elements) ++ "]"
  | .hash _ ⟨pairs, _⟩ => "\x7b" ++ ", ".intercalate (Value.inspectPairs pairs) ++ "\x7d"
  | .function _ closure =>
      "fn(" ++ ", ".intercalate closure.parameters ++ ") " ++ closure.body.render
  | .builtin _ => "builtin function"
  | .returned value => Value.inspect value
  | .error fault => "ERROR: " ++ fault.message

/-- The texts of the elements of an array. -/
def Value.inspectList : List Value → List String
  | [] => []
  | v :: vs => Value.inspect v :: Value.inspectList vs

/-- The texts of the pairs of a hash. -/
def Value.inspectPairs : List (Value × Value) → List String
  | [] => []
  | (key, value) :: pairs =>
      (Value.inspect key ++ ": " ++ Value.inspect value) :: Value.inspectPairs pairs

end

/-- The text of a value as a host sees it. -/
def Value.debug : Value → String
  | .string content => "\"" ++ content ++ "\""
  | v => v.inspect

/-- The texts of a list are the texts of its members in order, so facts about `inspect` go over to
an array member by member. `readAs_array` rewrites with it. -/
theorem Value.inspectList_eq_map (vs : List Value) :
    Value.inspectList vs = vs.map Value.inspect := by
  induction vs with
  | nil => simp [Value.inspectList]
  | cons v vs ih => simp [Value.inspectList, ih]

/-- The text of a pair is its key's and its value's, with a colon between them, so `inspectPairs` is
a map over the pairs in their order. What `hash_literal_last_wins` and `readAs_hash` say of
inspected tables goes by this form. -/
theorem Value.inspectPairs_eq_map (ps : List (Value × Value)) :
    Value.inspectPairs ps = ps.map fun p => p.1.inspect ++ ": " ++ p.2.inspect := by
  induction ps with
  | nil => simp [Value.inspectPairs]
  | cons p ps ih => cases p; simp [Value.inspectPairs, ih]

end Monkey
