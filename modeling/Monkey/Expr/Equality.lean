import Monkey.Expr

/-!
# `Monkey.Expr.Equality`: when two trees are the same

Trees are compared part by part, as plain data. `Expr.same` and its
companions decide it, `Expr.same_iff` says that what they decide is
equality, and the `DecidableEq` instances rest on that.
-/

set_option autoImplicit false

namespace Monkey

mutual

/-- Whether two expressions are the same tree. -/
def Expr.same : Expr → Expr → Bool
  | .identifier a, .identifier b => a == b
  | .integer a, .integer b => a == b
  | .boolean a, .boolean b => a == b
  | .string a, .string b => a == b
  | .array as, .array bs => Expr.sameList as bs
  | .hash ps, .hash qs => Expr.samePairs ps qs
  | .unary o a, .unary p b => o == p && Expr.same a b
  | .binary o a c, .binary p b d => o == p && Expr.same a b && Expr.same c d
  | .conditional a s t, .conditional b u v =>
      Expr.same a b && Statement.sameList s u && Statement.sameBranch t v
  | .function xs s, .function ys t => xs == ys && Statement.sameList s t
  | .call a as, .call b bs => Expr.same a b && Expr.sameList as bs
  | .index a c, .index b d => Expr.same a b && Expr.same c d
  | _, _ => false

/-- Whether two lists of expressions agree in every place. -/
def Expr.sameList : List Expr → List Expr → Bool
  | [], [] => true
  | a :: as, b :: bs => Expr.same a b && Expr.sameList as bs
  | _, _ => false

/-- Whether two lists of keys and values agree in every place. -/
def Expr.samePairs : List (Expr × Expr) → List (Expr × Expr) → Bool
  | [], [] => true
  | (a, c) :: ps, (b, d) :: qs => Expr.same a b && Expr.same c d && Expr.samePairs ps qs
  | _, _ => false

/-- Whether two statements are the same tree. -/
def Statement.same : Statement → Statement → Bool
  | .binding x a, .binding y b => x == y && Expr.same a b
  | .returning a, .returning b => Expr.same a b
  | .expression a, .expression b => Expr.same a b
  | _, _ => false

/-- Whether two blocks agree in every place. -/
def Statement.sameList : List Statement → List Statement → Bool
  | [], [] => true
  | s :: ss, t :: ts => Statement.same s t && Statement.sameList ss ts
  | _, _ => false

/-- Whether two alternatives are both absent or the same block. -/
def Statement.sameBranch : Option (List Statement) → Option (List Statement) → Bool
  | none, none => true
  | some s, some t => Statement.sameList s t
  | _, _ => false

end

mutual

/-- Two expressions are the same tree exactly when they are equal: `Expr.same` walks both trees at
once and compares names, numbers and operators on the way. One case for each pair of constructors;
lists, pairs and blocks go to the lemmas beside it, which come back here. -/
theorem Expr.same_iff : (a b : Expr) → (Expr.same a b = true ↔ a = b)
  | .identifier _, b => by cases b <;> simp [Expr.same]
  | .integer _, b => by cases b <;> simp [Expr.same]
  | .boolean _, b => by cases b <;> simp [Expr.same]
  | .string _, b => by cases b <;> simp [Expr.same]
  | .array as, b => by cases b <;> simp [Expr.same, Expr.sameList_iff as]
  | .hash ps, b => by cases b <;> simp [Expr.same, Expr.samePairs_iff ps]
  | .unary _ a, b => by cases b <;> simp [Expr.same, Expr.same_iff a]
  | .binary _ a c, b => by
      cases b <;> simp [Expr.same, Expr.same_iff a, Expr.same_iff c, and_assoc]
  | .conditional a s t, b => by
      cases b <;>
        simp [Expr.same, Expr.same_iff a, Statement.sameList_iff s, Statement.sameBranch_iff t,
          and_assoc]
  | .function _ s, b => by cases b <;> simp [Expr.same, Statement.sameList_iff s]
  | .call a as, b => by cases b <;> simp [Expr.same, Expr.same_iff a, Expr.sameList_iff as]
  | .index a c, b => by cases b <;> simp [Expr.same, Expr.same_iff a, Expr.same_iff c]

/-- Lists of expressions agree in every place exactly when they are equal. `Expr.sameList` says no
as soon as one list ends before the other, so lengths need no separate comparison. -/
theorem Expr.sameList_iff : (as bs : List Expr) → (Expr.sameList as bs = true ↔ as = bs)
  | [], bs => by cases bs <;> simp [Expr.sameList]
  | a :: as, bs => by
      cases bs <;> simp [Expr.sameList, Expr.same_iff a, Expr.sameList_iff as]

/-- Lists of keys and values agree in every place exactly when they are equal. The order of the
pairs counts: `Expr.samePairs` compares hash literals as they were written. -/
theorem Expr.samePairs_iff :
    (ps qs : List (Expr × Expr)) → (Expr.samePairs ps qs = true ↔ ps = qs)
  | [], qs => by cases qs <;> simp [Expr.samePairs]
  | (a, c) :: ps, qs => by
      cases qs with
      | nil => simp [Expr.samePairs]
      | cons q qs =>
          cases q
          simp [Expr.samePairs, Expr.same_iff a, Expr.same_iff c, Expr.samePairs_iff ps]

/-- Two statements are the same tree exactly when they are equal. Statements of different kinds
never are, and those of one kind compare their expressions by `Expr.same_iff`. -/
theorem Statement.same_iff : (s t : Statement) → (Statement.same s t = true ↔ s = t)
  | .binding _ a, t => by cases t <;> simp [Statement.same, Expr.same_iff a]
  | .returning a, t => by cases t <;> simp [Statement.same, Expr.same_iff a]
  | .expression a, t => by cases t <;> simp [Statement.same, Expr.same_iff a]

/-- Blocks agree in every place exactly when they are equal, place by place as in
`Expr.sameList_iff`. The bodies of functions and both branches of a conditional are compared so. -/
theorem Statement.sameList_iff :
    (ss ts : List Statement) → (Statement.sameList ss ts = true ↔ ss = ts)
  | [], ts => by cases ts <;> simp [Statement.sameList]
  | s :: ss, ts => by
      cases ts <;> simp [Statement.sameList, Statement.same_iff s, Statement.sameList_iff ss]

/-- Alternatives are the same exactly when they are equal. A missing `else` branch differs from an
empty one, which is why `Statement.sameBranch` looks at the option before the block. -/
theorem Statement.sameBranch_iff :
    (s t : Option (List Statement)) → (Statement.sameBranch s t = true ↔ s = t)
  | none, t => by cases t <;> simp [Statement.sameBranch]
  | some s, t => by cases t <;> simp [Statement.sameBranch, Statement.sameList_iff s]

end

instance : DecidableEq Expr := fun a b => decidable_of_iff _ (Expr.same_iff a b)

instance : DecidableEq Statement := fun s t => decidable_of_iff _ (Statement.same_iff s t)

deriving instance DecidableEq for Program

end Monkey
