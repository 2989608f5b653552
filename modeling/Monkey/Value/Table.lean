import Monkey.Fault

/-!
# `Monkey.Value.Table`: maps that remember insertion order

A table holds pairs of a key and a value, each filed under a hash key.
Filing a pair under a hash key in use replaces the pair that was there,
key and value, and keeps its place; otherwise the pair goes to the end.
The pairs stand in a list in the order in which their hash keys were
first used, and `slots` says at which place the pair of each hash key
stands.

* `HashKey` is what a key is filed under.
* `Table.insert`, `Table.get?`, `Table.size` are the operations;
  `Table.pairs` is what a table shows of itself.
-/

set_option autoImplicit false

namespace Monkey

/-- What a pair is filed under: a word tagged with the kind of the key, or the content of a
string. -/
inductive HashKey where
  | word (kind : Kind) (bits : UInt64)
  | text (content : String)
  deriving DecidableEq

/-- A map from hash keys to pairs that remembers the order of insertion. -/
structure Table (α : Type) where
  pairs : List (α × α)
  slots : List (HashKey × Nat)

namespace Table

variable {α : Type}

/-- The table without pairs. -/
def empty : Table α := ⟨[], []⟩

/-- Files a pair under a hash key. -/
def insert (t : Table α) (k : HashKey) (pair : α × α) : Table α :=
  match t.slots.lookup k with
  | some slot => { t with pairs := t.pairs.set slot pair }
  | none => ⟨t.pairs ++ [pair], t.slots ++ [(k, t.pairs.length)]⟩

/-- The pair filed under a hash key, if there is one. -/
def get? (t : Table α) (k : HashKey) : Option (α × α) :=
  match t.slots.lookup k with
  | some slot => t.pairs[slot]?
  | none => none

/-- The number of pairs. -/
def size (t : Table α) : Nat := t.pairs.length

/-- Whether there is no pair. -/
def isEmpty (t : Table α) : Bool := t.pairs.isEmpty

end Table

end Monkey
