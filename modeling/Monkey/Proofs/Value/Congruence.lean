import Monkey.Eval.Operators
import Monkey.Proofs.Eval.Content
import Monkey.Proofs.Value.Keys

/-!
# `Monkey.Proofs.Value.Congruence`: what a host takes for the same

To a host two values are the same if they hold the same. What it does not
look at can be taken away: the identities of arrays and hashes, the cause of
an error behind its message, and all of a function but its identity.
`Value.bare` does so, and two values are the same exactly if they are equal
then (`Value.beq_iff_bare`). So sameness is an equivalence because equality
is, and what can be told from a value that has been laid bare is the same
for values that are the same.

* `Value.kind_bare`, `Value.hashKey?_bare`, `Value.isTruthy_bare` and
  `Value.bare_index_congr` say what can be told from it.
* A text shows more of a function than its identity.
  `Value.inspect_eq_of_same` needs that no two functions share one.
* `Table.hashKeys_eq_of_beq` and `Table.slots_ofHistory_eq_iff` say when two
  tables have the same slots: by their pairs, and by where the slots lead.
* `Value.beq_congruent` puts it together.
-/

set_option autoImplicit false

namespace Monkey

/-! ### Values laid bare -/

mutual

/-- The value without what a host does not look at: the identities of arrays and hashes, the causes
of errors, and all of functions but their identities. -/
def Value.bare : Value → Value
  | .integer n => .integer n
  | .boolean b => .boolean b
  | .string content => .string content
  | .null => .null
  | .array _ vs => .array 0 (Value.bareList vs)
  | .hash _ ⟨pairs, slots⟩ => .hash 0 ⟨Value.barePairs pairs, slots⟩
  | .function i _ => .function i ⟨[], [], 0⟩
  | .builtin b => .builtin b
  | .returned v => .returned (Value.bare v)
  | .error fault => .error (.reported fault.message)

/-- Each value of a list laid bare. -/
def Value.bareList : List Value → List Value
  | [] => []
  | v :: vs => Value.bare v :: Value.bareList vs

/-- Each key and each value of a list laid bare. -/
def Value.barePairs : List (Value × Value) → List (Value × Value)
  | [] => []
  | (k, v) :: ps => (Value.bare k, Value.bare v) :: Value.barePairs ps

end

mutual

/-- Two values hold the same exactly if they are equal when they have been laid bare. So `same` is
an equivalence, and what it does not look at is written down once, in `bare`. -/
theorem Value.same_iff_bare : (a b : Value) → (Value.same a b = true ↔ a.bare = b.bare)
  | .integer _, b => by cases b <;> simp [Value.same, Value.bare]
  | .boolean _, b => by cases b <;> simp [Value.same, Value.bare]
  | .string _, b => by cases b <;> simp [Value.same, Value.bare]
  | .null, b => by cases b <;> simp [Value.same, Value.bare]
  | .array _ vs, b => by cases b <;> simp [Value.same, Value.bare, Value.sameList_iff_bare vs]
  | .hash _ ⟨ps, ss⟩, b => by
      cases b <;> simp [Value.same, Value.bare, Value.samePairs_iff_bare ps]
  | .function _ _, b => by cases b <;> simp [Value.same, Value.bare]
  | .builtin _, b => by cases b <;> simp [Value.same, Value.bare]
  | .returned v, b => by cases b <;> simp [Value.same, Value.bare, Value.same_iff_bare v]
  | .error _, b => by cases b <;> simp [Value.same, Value.bare]

/-- Two lists hold the same exactly if their elements laid bare are equal, one by one. It goes
together with `Value.same_iff_bare`, as the comparisons do. -/
theorem Value.sameList_iff_bare :
    (as bs : List Value) → (Value.sameList as bs = true ↔ Value.bareList as = Value.bareList bs)
  | [], bs => by cases bs <;> simp [Value.sameList, Value.bareList]
  | a :: as, bs => by
      cases bs <;>
        simp [Value.sameList, Value.bareList, Value.same_iff_bare a, Value.sameList_iff_bare as]

/-- Two lists of pairs hold the same exactly if keys and values laid bare by `barePairs` are equal.
The third of the three mutual statements. -/
theorem Value.samePairs_iff_bare :
    (ps qs : List (Value × Value)) →
      (Value.samePairs ps qs = true ↔ Value.barePairs ps = Value.barePairs qs)
  | [], qs => by cases qs <;> simp [Value.samePairs, Value.barePairs]
  | (a, c) :: ps, qs => by
      cases qs with
      | nil => simp [Value.samePairs, Value.barePairs]
      | cons q qs =>
          cases q
          simp [Value.samePairs, Value.barePairs, Value.same_iff_bare a, Value.same_iff_bare c,
            Value.samePairs_iff_bare ps]

end

namespace Value

/-- A host takes two values for the same exactly if they are equal laid bare: `==` on values is
`same`, which `Value.same_iff_bare` is about. -/
theorem beq_iff_bare {a b : Value} : (a == b) = true ↔ a.bare = b.bare := same_iff_bare a b

/-- Laying a list bare is laying each of its elements bare. `bareList` is a recursion only because
`bare` goes through it. -/
theorem bareList_eq_map (vs : List Value) : bareList vs = vs.map bare := by
  induction vs with
  | nil => rfl
  | cons v vs ih => rw [bareList, ih, List.map_cons]

/-- Laying pairs bare is laying each key and each value bare, so facts about `List.map` are at hand.
-/
theorem barePairs_eq_map (ps : List (Value × Value)) :
    barePairs ps = ps.map fun p => (p.1.bare, p.2.bare) := by
  induction ps with
  | nil => rfl
  | cons p ps ih => rw [barePairs, ih, List.map_cons]

/-! ### What can be told from a value laid bare -/

/-- Laying a value bare does not change its `kind`: what is taken away are parts of a value, never
its constructor. -/
@[simp] theorem kind_bare (v : Value) : v.bare.kind = v.kind := by
  cases v <;> simp [bare, kind]

/-- Laying a value bare does not change which branch a conditional takes for it; only `null` and
`false` are not truthy, and both stay as they are. -/
@[simp] theorem isTruthy_bare (v : Value) : v.bare.isTruthy = v.isTruthy := by
  cases v <;> simp [bare, isTruthy]

/-- Laying a value bare does not change its `hashKey?`, for integers, booleans and strings stay as
they are and nothing else has one. -/
@[simp] theorem hashKey?_bare (v : Value) : v.bare.hashKey? = v.hashKey? := by
  cases v <;> simp [bare, hashKey?]

/-- An element laid bare is that of the elements laid bare, and outside the list there is `null` on
both sides. -/
theorem bare_elementAt (vs : List Value) (i : Int64) :
    (elementAt vs i).bare = elementAt (bareList vs) i := by
  unfold elementAt
  split
  · rfl
  · rw [bareList_eq_map, List.getElem?_map]
    cases vs[i.toInt.toNat]? <;> rfl

/-- The value that `get?` finds under a hash key, laid bare, is that of the pairs laid bare: the
slots are the same, so the same place is looked at. -/
theorem bare_get? (t : Table Value) (k : HashKey) :
    (((t.get? k).map Prod.snd).getD .null).bare =
      (((⟨barePairs t.pairs, t.slots⟩ : Table Value).get? k).map Prod.snd).getD .null := by
  unfold Table.get?
  cases t.slots.lookup k with
  | none => rfl
  | some slot =>
      dsimp only
      rw [barePairs_eq_map, List.getElem?_map]
      cases t.pairs[slot]? <;> rfl

/-- Nothing but a hash can be indexed, and an array by an integer. All else is the error
`notIndexable` that names the kind, hence the same for values of one kind. -/
theorem index_eq_error {a k : Value} (hhash : a.kind ≠ .hash)
    (harray : ¬(a.kind = .array ∧ k.kind = .integer)) :
    a.index k = .error (.notIndexable a.kind) := by
  cases a with
  | array i vs =>
      cases k with
      | integer n => exact absurd ⟨rfl, rfl⟩ harray
      | _ => rfl
  | hash i t => exact absurd rfl hhash
  | _ => rfl

/-- Arrays that are equal laid bare have elements at each place that are so, by `bare_elementAt` for
both. -/
theorem bare_index_array {vs ws : List Value} (h : bareList vs = bareList ws) (i j : Identity)
    (n : Int64) :
    ((array i vs).index (integer n)).bare = ((array j ws).index (integer n)).bare := by
  show (elementAt vs n).bare = (elementAt ws n).bare
  rw [bare_elementAt, bare_elementAt, h]

/-- Hashes that are equal laid bare have values under each hash key that are so, by `bare_get?`. A
value without a hash key gives an error that names its kind. -/
theorem bare_index_hash {t u : Table Value} (hpairs : barePairs t.pairs = barePairs u.pairs)
    (hslots : t.slots = u.slots) (i j : Identity) {k l : Value} (hkey : k.hashKey? = l.hashKey?)
    (hkind : k.kind = l.kind) : ((hash i t).index k).bare = ((hash j u).index l).bare := by
  cases hk : k.hashKey? with
  | some key => rw [index_hash hk, index_hash (hkey ▸ hk), bare_get?, bare_get?, hpairs, hslots]
  | none => simp only [index, hk, hkey ▸ hk, hkind]

/-- Indexing the same values with the same keys gives the same. The cases are hash, array at an
integer, and neither; `kind_bare` puts both sides into one case. -/
theorem bare_index_congr {a b k l : Value} (hab : a.bare = b.bare) (hkl : k.bare = l.bare) :
    (a.index k).bare = (b.index l).bare := by
  have hkind : a.kind = b.kind := by rw [← kind_bare a, hab, kind_bare]
  have hkinds : k.kind = l.kind := by rw [← kind_bare k, hkl, kind_bare]
  -- Only a hash, and an array at an integer, is looked into; all else is an error that names kinds.
  by_cases hhash : a.kind = .hash
  · cases a <;> cases hhash
    cases b <;> cases hkind
    rename_i i t j u
    obtain ⟨hpairs, hslots⟩ : barePairs t.pairs = barePairs u.pairs ∧ t.slots = u.slots := by
      simpa [bare] using hab
    exact bare_index_hash hpairs hslots i j (by rw [← hashKey?_bare k, hkl, hashKey?_bare]) hkinds
  by_cases harray : a.kind = .array ∧ k.kind = .integer
  · obtain ⟨ha, hk⟩ := harray
    cases a <;> cases ha
    cases k <;> cases hk
    cases b <;> cases hkind
    cases l <;> cases hkinds
    rename_i i vs n j ws m
    have hvs : bareList vs = bareList ws := by simpa [bare] using hab
    have hnm : n = m := by simpa [bare] using hkl
    exact hnm ▸ bare_index_array hvs i j n
  · rw [index_eq_error hhash harray, index_eq_error (hkind ▸ hhash) (hkind ▸ hkinds ▸ harray),
      hkind]

end Value

/-! ### Texts -/

/-- A function in the one value and a function in the other that share an identity are one
function. -/
def Value.ShareFunctions (a b : Value) : Prop :=
  ∀ i f g, (Value.function i f).PartOf a → (Value.function i g).PartOf b → f = g

-- The induction is on the first value. The second is built in the same way, or it would not be the
-- same, and functions that stand in parts of the two stand in the two.
mutual

/-- Values that hold the same have the same text, if functions that share an identity are the same,
by `ShareFunctions`. Without that hypothesis two functions of one identity could be written
differently. -/
theorem Value.inspect_eq_of_same : (a b : Value) → Value.same a b = true → a.ShareFunctions b →
    a.inspect = b.inspect
  | .integer _, b, h, _ => by cases b <;> simp_all [Value.same]
  | .boolean _, b, h, _ => by cases b <;> simp_all [Value.same]
  | .string _, b, h, _ => by cases b <;> simp_all [Value.same]
  | .null, b, h, _ => by cases b <;> simp_all [Value.same]
  | .builtin _, b, h, _ => by cases b <;> simp_all [Value.same]
  | .error _, b, h, _ => by cases b <;> simp_all [Value.same, Value.inspect]
  | .function i f, b, h, hfun => by
      cases b with
      | function j g =>
          -- Here the hypothesis is needed: `same` compares the identities of functions only.
          obtain rfl : i = j := by simpa [Value.same] using h
          rw [hfun i f g .whole .whole]
      | _ => simp [Value.same] at h
  | .returned v, b, h, hfun => by
      cases b with
      | returned w =>
          rw [Value.same] at h
          rw [Value.inspect, Value.inspect, Value.inspect_eq_of_same v w h
            fun i f g hf hg => hfun i f g (.returned hf) (.returned hg)]
      | _ => simp [Value.same] at h
  | .array i vs, b, h, hfun => by
      cases b with
      | array j ws =>
          rw [Value.same] at h
          rw [Value.inspect, Value.inspect, Value.inspectList_eq_of_same vs ws h
            fun v hv w hw i f g hf hg => hfun i f g (.element hv hf) (.element hw hg)]
      | _ => simp [Value.same] at h
  | .hash i ⟨ps, ss⟩, b, h, hfun => by
      cases b with
      | hash j u =>
          rw [Value.same, Bool.and_eq_true] at h
          rw [Value.inspect, Value.inspect, Value.inspectPairs_eq_of_same ps u.pairs h.1
            fun p hp q hq => ⟨fun i f g hf hg => hfun i f g (.key hp hf) (.key hq hg),
              fun i f g hf hg => hfun i f g (.entry hp hf) (.entry hq hg)⟩]
      | _ => simp [Value.same] at h

/-- Lists that hold the same have the same texts of elements. The hypothesis on functions is passed
to each element and its counterpart, by `Value.inspect_eq_of_same`. -/
theorem Value.inspectList_eq_of_same : (as bs : List Value) → Value.sameList as bs = true →
    (∀ a ∈ as, ∀ b ∈ bs, a.ShareFunctions b) → Value.inspectList as = Value.inspectList bs
  | [], bs, h, _ => by cases bs <;> simp_all [Value.sameList]
  | a :: as, bs, h, hfun => by
      cases bs with
      | nil => simp [Value.sameList] at h
      | cons b bs =>
          rw [Value.sameList, Bool.and_eq_true] at h
          rw [Value.inspectList, Value.inspectList,
            Value.inspect_eq_of_same a b h.1 (hfun a List.mem_cons_self b List.mem_cons_self),
            Value.inspectList_eq_of_same as bs h.2 fun v hv w hw =>
              hfun v (List.mem_cons_of_mem a hv) w (List.mem_cons_of_mem b hw)]

/-- Pairs that hold the same have the same texts, of keys and of values, as
`Value.inspectList_eq_of_same` has it for elements. -/
theorem Value.inspectPairs_eq_of_same : (ps qs : List (Value × Value)) →
    Value.samePairs ps qs = true →
    (∀ p ∈ ps, ∀ q ∈ qs, p.1.ShareFunctions q.1 ∧ p.2.ShareFunctions q.2) →
    Value.inspectPairs ps = Value.inspectPairs qs
  | [], qs, h, _ => by cases qs <;> simp_all [Value.samePairs]
  | (a, c) :: ps, qs, h, hfun => by
      cases qs with
      | nil => simp [Value.samePairs] at h
      | cons q qs =>
          obtain ⟨b, d⟩ := q
          rw [Value.samePairs, Bool.and_eq_true, Bool.and_eq_true] at h
          obtain ⟨⟨hkey, hvalue⟩, hrest⟩ := h
          obtain ⟨hkeys, hvalues⟩ := hfun (a, c) List.mem_cons_self (b, d) List.mem_cons_self
          rw [Value.inspectPairs, Value.inspectPairs, Value.inspect_eq_of_same a b hkey hkeys,
            Value.inspect_eq_of_same c d hvalue hvalues,
            Value.inspectPairs_eq_of_same ps qs hrest fun p hp q hq =>
              hfun p (List.mem_cons_of_mem _ hp) q (List.mem_cons_of_mem _ hq)]

end

namespace Value

/-- Only a string has another text for a host, where it is quoted. For every other kind `debug` is
`inspect`. -/
theorem debug_eq_inspect {v : Value} (h : v.kind ≠ .string) : v.debug = v.inspect := by
  cases v with
  | string => exact absurd rfl h
  | _ => rfl

/-- Values that hold the same have the same text for a host. Strings that are the same are equal,
and for the others it is `Value.inspect_eq_of_same`. -/
theorem debug_eq_of_same {a b : Value} (h : same a b = true) (hfun : a.ShareFunctions b) :
    a.debug = b.debug := by
  have hinspect : a.inspect = b.inspect := inspect_eq_of_same a b h hfun
  have hbare : a.bare = b.bare := (same_iff_bare a b).1 h
  have hkind : a.kind = b.kind := by rw [← kind_bare a, hbare, kind_bare]
  by_cases hstring : a.kind = .string
  · cases a <;> cases hstring
    cases b <;> cases hkind
    simpa [bare, debug] using hbare
  · rw [debug_eq_inspect hstring, debug_eq_inspect (hkind ▸ hstring), hinspect]

end Value

/-! ### Hashes -/

/-- Pairs are compared in order, keys with keys and values with values: `samePairs` is what `==` on
lists of pairs comes to. -/
theorem Value.samePairs_eq_beq (ps qs : List (Value × Value)) :
    Value.samePairs ps qs = (ps == qs) := by
  induction ps generalizing qs with
  | nil => cases qs <;> rfl
  | cons p ps ih =>
      cases qs with
      | nil => rfl
      | cons q qs =>
          rw [List.cons_beq_cons, ← ih]
          rfl

/-- Of two hashes the pairs are compared, and which slots lead to them. Their identities are not, as
`same` leaves them out. -/
theorem Value.beq_hash_iff (i j : Identity) (t u : Table Value) :
    (Value.hash i t == Value.hash j u) = true ↔
      (t.pairs == u.pairs) = true ∧ t.slots = u.slots := by
  show Value.same (.hash i ⟨t.pairs, t.slots⟩) (.hash j ⟨u.pairs, u.slots⟩) = true ↔ _
  rw [Value.same, Bool.and_eq_true, Value.samePairs_eq_beq]
  exact and_congr_right fun _ => beq_iff_eq

namespace Table

/-- Where the pairs are the same, the keys are filed under the same hash keys, by `hashKey?_bare`
for each key. -/
theorem hashKeys_eq_of_beq {ps qs : List (Value × Value)} (h : (ps == qs) = true) :
    (ps.map Prod.fst).map Value.hashKey? = (qs.map Prod.fst).map Value.hashKey? := by
  rw [← Value.samePairs_eq_beq, Value.samePairs_iff_bare, Value.barePairs_eq_map,
    Value.barePairs_eq_map] at h
  have hkeys := congrArg (List.map fun p => p.1.hashKey?) h
  simpa only [List.map_map, Function.comp_def, Value.hashKey?_bare] using hkeys

/-- Hash keys that have one place each stand where they are found: `idxOf?` finds the first place,
and `place_unique` says that there is no other. -/
theorem getElem?_keys_iff {α : Type} {h : History α} (ho : h.Ordered) {n : Nat} {k : HashKey} :
    h.keys[n]? = some k ↔ h.keys.idxOf? k = some n := by
  constructor
  · intro hk
    obtain ⟨m, hm⟩ : ∃ m, h.keys.idxOf? k = some m := by
      cases hfound : h.keys.idxOf? k with
      | some m => exact ⟨m, rfl⟩
      | none => exact absurd (List.mem_of_getElem? hk) (List.idxOf?_eq_none_iff.1 hfound)
    obtain ⟨hlt, hkm, -⟩ := List.idxOf?_eq_some_iff.1 hm
    rw [ho.place_unique hk (List.getElem?_eq_some_iff.2 ⟨hlt, hkm⟩), hm]
  · intro hfound
    obtain ⟨hlt, hk, -⟩ := List.idxOf?_eq_some_iff.1 hfound
    exact List.getElem?_eq_some_iff.2 ⟨hlt, hk⟩

/-- Slots that lead to the same places are the same slots, whatever has been filed. A table lists
its slots in the order of first use, so looking up each hash key tells the list, by
`getElem?_keys_iff`. -/
theorem slots_ofHistory_eq_iff {α : Type} (g h : History α) :
    (ofHistory g).slots = (ofHistory h).slots ↔
      ∀ k, (ofHistory g).slots.lookup k = (ofHistory h).slots.lookup k := by
  constructor
  · intro heq k
    rw [heq]
  · intro hlookup
    -- The slots are the hash keys in order, numbered, so where each key leads determines them.
    have hg : (ofHistory g).Records g := Records.nil.insertAll g
    have hh : (ofHistory h).Records h := Records.nil.insertAll h
    have hkeys : g.keys = h.keys := by
      refine List.ext_getElem? fun n => Option.ext fun k => ?_
      rw [getElem?_keys_iff hg.ordered, getElem?_keys_iff hh.ordered, ← hg.lookup_slots,
        ← hh.lookup_slots, hlookup]
    rw [hg.slots, hh.slots, hkeys]

end Table

/-- What a host takes for the same is so in every respect.

Sameness is an equivalence on all values, signals among them. Values that are the same are of one
kind; a conditional takes the same branch for them; they have the same hash key, or both none; and
indexing them by the same gives the same. If the functions in them that share an identity are the
same functions, they have the same text, to a user and to a host.

Two hashes are the same exactly if their pairs are and their slots lead to the same places. If they
were made by filing pairs under their own keys, they are the same exactly if their pairs are the
same in the same order.

Through `beq_iff_bare` most parts say that a function of values does not look at what `bare` takes
away. -/
theorem Value.beq_congruent :
    (∀ a : Value, (a == a) = true) ∧
    (∀ a b : Value, (a == b) = (b == a)) ∧
    (∀ a b c : Value, (a == b) = true → (b == c) = true → (a == c) = true) ∧
    (∀ a b : Value, (a == b) = true →
      a.kind = b.kind ∧ a.isTruthy = b.isTruthy ∧ a.hashKey? = b.hashKey? ∧
      (∀ k l : Value, (k == l) = true → (a.index k == b.index l) = true) ∧
      ((∀ i f g, (Value.function i f).PartOf a → (Value.function i g).PartOf b → f = g) →
        a.inspect = b.inspect ∧ a.debug = b.debug)) ∧
    (∀ (i j : Identity) (g h : History Value),
      (Value.hash i (Table.ofHistory g) == .hash j (Table.ofHistory h)) = true ↔
        ((Table.ofHistory g).pairs == (Table.ofHistory h).pairs) = true ∧
        ∀ k, (Table.ofHistory g).slots.lookup k = (Table.ofHistory h).slots.lookup k) ∧
    ∀ (i j : Identity) (ps qs : List (Value × Value)),
      (Value.hash i (Table.ofPairs ps) == .hash j (Table.ofPairs qs)) = true ↔
        ((Table.ofPairs ps).pairs == (Table.ofPairs qs).pairs) = true := by
  refine ⟨fun a => beq_iff_bare.2 rfl, fun a b => ?_, fun a b c hab hbc => ?_, fun a b hab => ?_,
    fun i j g h => ?_, fun i j ps qs => ?_⟩
  · rw [Bool.eq_iff_iff, beq_iff_bare, beq_iff_bare]
    exact eq_comm
  · exact beq_iff_bare.2 ((beq_iff_bare.1 hab).trans (beq_iff_bare.1 hbc))
  -- What does not look at more than the bare value agrees on both.
  · have hbare : a.bare = b.bare := beq_iff_bare.1 hab
    refine ⟨?_, ?_, ?_, fun k l hkl => ?_, fun hfun => ?_⟩
    · rw [← kind_bare a, hbare, kind_bare]
    · rw [← isTruthy_bare a, hbare, isTruthy_bare]
    · rw [← hashKey?_bare a, hbare, hashKey?_bare]
    · exact beq_iff_bare.2 (bare_index_congr hbare (beq_iff_bare.1 hkl))
    · exact ⟨inspect_eq_of_same a b hab hfun, debug_eq_of_same hab hfun⟩
  -- A history may file a pair under any hash key, so that the slots count beside the pairs.
  · rw [beq_hash_iff, Table.slots_ofHistory_eq_iff]
  · rw [beq_hash_iff]
    exact ⟨And.left, fun hpairs =>
      ⟨hpairs, Table.slots_ofPairs_of_hashKeys (Table.hashKeys_eq_of_beq hpairs)⟩⟩

/-- An array of a function and an error is the same as a copy of it, of another identity and with
another cause of the same message. So the two have the same element at every place, and the same
text. -/
theorem Value.beq_congruent_of_copies :
    let f : Closure := ⟨["x"], [.expression (.identifier "x")], 0⟩
    let a := Value.array 0 [.returned (.function 7 f), .error .divisionByZero]
    let b := Value.array 2 [.returned (.function 7 f), .error (.reported "division by zero")]
    (a == b) = true ∧ (a.index (.integer 1) == b.index (.integer 1)) = true ∧
      a.inspect = b.inspect := by
  intro f a b
  have hab : (a == b) = true := Value.beq_iff_bare.2 rfl
  obtain ⟨hrefl, -, -, hcongr, -, -⟩ := Value.beq_congruent
  obtain ⟨-, -, -, hindex, htext⟩ := hcongr a b hab
  -- The only function in either array is `f`.
  have hfun (i : Identity) (fault : Fault) :
      (Value.array i [.returned (.function 7 f), .error fault]).Functions (· = f) := by
    refine .array (fun v hv => ?_) i
    obtain rfl | rfl : v = .returned (.function 7 f) ∨ v = .error fault := by simpa using hv
    · have hf : (Value.function 7 f).Functions (· = f) := .function (P := (· = f)) rfl 7
      exact .of_arrives hf
    · exact .of_arrives trivial
  refine ⟨hab, hindex _ _ (hrefl _), (htext fun i g h hg hh => ?_).1⟩
  rw [hfun 0 _ i g hg, hfun 2 _ i h hh]

end Monkey
