import Monkey.Value.Table

/-!
# `Monkey.Proofs.Value.Insertions`: what a table remembers

A table is made by filing pairs one after another. What it remembers of
them is told from the insertions themselves: under each hash key the pair
filed last, in the order in which the hash keys were first used. That the
slots lead to these pairs, and never outside of them, is what filing
keeps.

* `History` is a list of insertions; `History.last?` and `History.keys`
  are what is to be remembered of it.
* `Table.Records` says that a table remembers just that; `Records.insert`
  is the step and `Records.insertAll` the run.
* `Table.ofHistory_remembers` puts it together.
-/

set_option autoImplicit false

namespace Monkey

/-- Insertions, the earliest first: hash keys, and the pairs filed under them. -/
abbrev History (α : Type) : Type := List (HashKey × (α × α))

namespace History

variable {α : Type} (h : History α)

/-- The pair that was filed last under a hash key. -/
def last? (k : HashKey) : Option (α × α) := h.reverse.lookup k

/-- At which of the insertions a hash key was used first. -/
def firstUse (k : HashKey) : Nat := (h.map Prod.fst).idxOf k

/-- The hash keys in the order in which they were first used. -/
def keys : List HashKey := (h.map Prod.fst).eraseDups

variable {h} {k : HashKey} {pair : α × α}

/-- One more insertion counts for its own hash key, and for others `last?` is what it was. The
induction of this module adds insertions at the end. -/
theorem last?_concat (j : HashKey) :
    last? (h ++ [(k, pair)]) j = if j = k then some pair else h.last? j := by
  by_cases hj : j = k
  · simp [last?, hj]
  · simp [last?, hj, List.lookup_cons, beq_eq_false_iff_ne.2 hj]

/-- Nothing was filed under a hash key exactly if it is not among those that were used. -/
theorem last?_eq_none : h.last? k = none ↔ k ∉ h.map Prod.fst := by
  rw [last?, List.lookup_eq_none_iff]
  simp only [List.mem_reverse, List.mem_map, bne_iff_ne]
  constructor
  · rintro hne ⟨op, hop, rfl⟩
    exact hne op hop rfl
  · rintro hnone op hop rfl
    exact hnone ⟨op, hop, rfl⟩

/-- The list `keys` holds exactly the hash keys that were used; `eraseDups` takes away repetitions
only. -/
theorem mem_keys {j : HashKey} : j ∈ h.keys ↔ j ∈ h.map Prod.fst := List.mem_eraseDups

/-- A hash key that was used before has its place already, so the list of `keys` stays as it is when
it is used again. -/
theorem keys_concat_of_mem (hk : k ∈ h.keys) : keys (h ++ [(k, pair)]) = h.keys := by
  have hmem := mem_keys.1 hk
  simp only [keys, List.map_append, List.map_cons, List.map_nil, List.eraseDups_append]
  simp [List.removeAll, hmem]

/-- A new hash key comes behind the others in `keys`. With `keys_concat_of_mem` these are the two
ways in which a table changes. -/
theorem keys_concat_of_not_mem (hk : k ∉ h.keys) : keys (h ++ [(k, pair)]) = h.keys ++ [k] := by
  have hmem := mt mem_keys.2 hk
  simp only [keys, List.map_append, List.map_cons, List.map_nil, List.eraseDups_append]
  simp [List.removeAll, hmem, List.eraseDups_cons]

/-- When a hash key was used first does not change any more, once it has been used: `idxOf` finds
the first place, and insertions come behind. -/
theorem firstUse_concat_of_mem {j : HashKey} (hj : j ∈ h.keys) :
    firstUse (h ++ [(k, pair)]) j = h.firstUse j := by
  rw [firstUse, List.map_append, List.idxOf_append, if_pos (mem_keys.1 hj), firstUse]

/-- A new hash key is used first behind all others, at the place of the last insertion, while the
others were used before it. -/
theorem firstUse_lt_concat {j : HashKey} (hj : j ∈ h.keys) (hk : k ∉ h.keys) :
    firstUse (h ++ [(k, pair)]) j < firstUse (h ++ [(k, pair)]) k := by
  have hlt : h.firstUse j < (h.map Prod.fst).length := List.idxOf_lt_length_iff.2 (mem_keys.1 hj)
  have hnew : firstUse (h ++ [(k, pair)]) k = (h.map Prod.fst).length := by
    rw [firstUse, List.map_append, List.idxOf_append, if_neg (mt mem_keys.2 hk)]
    simp
  rwa [firstUse_concat_of_mem hj, hnew]

/-- The hash keys stand in the order in which they were first used. -/
def Ordered (h : History α) : Prop := h.keys.Pairwise fun j k => h.firstUse j < h.firstUse k

/-- One more insertion keeps the hash keys ordered by first use. A key in use keeps its place and
its time, and a new one comes last in both. -/
theorem Ordered.concat (ho : h.Ordered) (k : HashKey) (pair : α × α) :
    Ordered (h ++ [(k, pair)]) := by
  have hold : h.keys.Pairwise fun i j =>
      firstUse (h ++ [(k, pair)]) i < firstUse (h ++ [(k, pair)]) j := by
    refine List.Pairwise.imp_of_mem (fun hi hj hlt => ?_) ho
    rwa [firstUse_concat_of_mem hi, firstUse_concat_of_mem hj]
  unfold Ordered
  by_cases hk : k ∈ h.keys
  · rwa [keys_concat_of_mem hk]
  · rw [keys_concat_of_not_mem hk]
    refine List.pairwise_append.2 ⟨hold, List.pairwise_singleton _ _, fun j hj i hi => ?_⟩
    rw [List.mem_singleton.1 hi]
    exact firstUse_lt_concat hj hk

/-- A hash key has one place in `keys`, since two would be in order of a first use that is the same
for both. -/
theorem Ordered.place_unique (ho : h.Ordered) {m n : Nat} (hm : h.keys[m]? = some k)
    (hn : h.keys[n]? = some k) : m = n := by
  obtain ⟨hmlt, hm⟩ := List.getElem?_eq_some_iff.1 hm
  obtain ⟨hnlt, hn⟩ := List.getElem?_eq_some_iff.1 hn
  have hordered := List.pairwise_iff_getElem.1 ho
  rcases Nat.lt_trichotomy m n with hlt | heq | hlt
  · have hfirst := hordered m n hmlt hnlt hlt
    rw [hm, hn] at hfirst
    exact absurd hfirst (Nat.lt_irrefl _)
  · exact heq
  · have hfirst := hordered n m hnlt hmlt hlt
    rw [hm, hn] at hfirst
    exact absurd hfirst (Nat.lt_irrefl _)

end History

/-! ### Places of hash keys -/

/-- Among hash keys with their places the place of one is found: `lookup` in `zipIdx` is `idxOf?`,
moved by where the count begins. -/
theorem lookup_zipIdx (keys : List HashKey) (n : Nat) (k : HashKey) :
    (keys.zipIdx n).lookup k = (keys.idxOf? k).map (· + n) := by
  induction keys generalizing n with
  | nil => rfl
  | cons j js ih =>
      rw [List.zipIdx_cons, List.lookup_cons, List.idxOf?_cons, ih]
      by_cases hj : j = k
      · simp [hj]
      · have hk : k ≠ j := fun heq => hj heq.symm
        rw [beq_eq_false_iff_ne.2 hk, beq_eq_false_iff_ne.2 hj]
        cases js.idxOf? k with
        | none => rfl
        | some i => simp [Nat.add_assoc, Nat.add_comm 1 n]

/-! ### Tables -/

namespace Table

variable {α : Type}

/-- Files pairs in order. -/
def insertAll (t : Table α) (h : History α) : Table α :=
  h.foldl (fun t op => t.insert op.1 op.2) t

/-- The table that insertions make of the empty one. -/
def ofHistory (h : History α) : Table α := empty.insertAll h

/-- The table remembers of the insertions what it is to remember. -/
structure Records (t : Table α) (h : History α) : Prop where
  slots : t.slots = h.keys.zipIdx
  pairs : t.pairs.map some = h.keys.map h.last?
  ordered : h.Ordered

namespace Records

variable {t : Table α} {h : History α}

/-- The empty table records that nothing was filed. From it every table of a history is made,
insertion by insertion. -/
theorem nil : (empty : Table α).Records [] := ⟨rfl, rfl, .nil⟩

/-- There is one pair for each hash key, because the pairs are the images of `keys`. -/
theorem length_pairs (ht : t.Records h) : t.pairs.length = h.keys.length := by
  simpa using congrArg List.length ht.pairs

/-- Slots are looked up where the hash keys stand: the slots of a table are its `keys` with their
places, so `lookup_zipIdx` applies. -/
theorem lookup_slots (ht : t.Records h) (k : HashKey) :
    t.slots.lookup k = h.keys.idxOf? k := by
  rw [ht.slots, lookup_zipIdx]
  simp

/-- What stands at the place of a hash key was filed last under it. Reading `pairs` of the structure
`Records` at one place. -/
theorem getElem?_pairs (ht : t.Records h) {k : HashKey} {slot : Nat}
    (hk : h.keys[slot]? = some k) : t.pairs[slot]? = h.last? k := by
  have hplace := congrArg (·[slot]?) ht.pairs
  simp only [List.getElem?_map, hk, Option.map_some] at hplace
  cases hpair : t.pairs[slot]? with
  | none =>
      rw [hpair] at hplace
      cases hplace
  | some pair =>
      rw [hpair] at hplace
      exact Option.some.inj hplace

/-- Filing under a hash key in use replaces the pair at its place, and no other. By `place_unique`
what stands elsewhere belongs to other hash keys. -/
theorem insert_of_mem (ht : t.Records h) {k : HashKey} {slot : Nat}
    (hslot : h.keys.idxOf? k = some slot) (pair : α × α) :
    (⟨t.pairs.set slot pair, t.slots⟩ : Table α).Records (h ++ [(k, pair)]) := by
  obtain ⟨hlt, hk, -⟩ := List.idxOf?_eq_some_iff.1 hslot
  have hplace : h.keys[slot]? = some k := by rw [List.getElem?_eq_getElem hlt, hk]
  have hkeys : History.keys (h ++ [(k, pair)]) = h.keys :=
    History.keys_concat_of_mem (List.mem_of_getElem hk)
  refine ⟨hkeys.symm ▸ ht.slots, ?_, ht.ordered.concat k pair⟩
  rw [hkeys, List.map_set, ht.pairs]
  refine List.ext_getElem? fun i => ?_
  rw [List.getElem?_set, List.getElem?_map, List.getElem?_map, List.length_map, if_pos hlt]
  split
  · rename_i heq
    subst heq
    rw [hplace, Option.map_some, History.last?_concat, if_pos rfl]
  · -- A hash key has one place, so that what stands at another is not `k`.
    rename_i hne
    cases hj : h.keys[i]? with
    | none => rfl
    | some j =>
        have hother : j ≠ k := by
          rintro rfl
          exact hne (ht.ordered.place_unique hplace hj)
        rw [Option.map_some, Option.map_some, History.last?_concat, if_neg hother]

/-- Filing under a new hash key adds the pair behind the others, and a slot that leads to it.
Nothing else changes, as `last?` of the others does not. -/
theorem insert_of_not_mem (ht : t.Records h) {k : HashKey} (hk : k ∉ h.keys) (pair : α × α) :
    (⟨t.pairs ++ [pair], t.slots ++ [(k, t.pairs.length)]⟩ : Table α).Records
      (h ++ [(k, pair)]) := by
  have hkeys : History.keys (h ++ [(k, pair)]) = h.keys ++ [k] :=
    History.keys_concat_of_not_mem hk
  have hothers : h.keys.map (History.last? (h ++ [(k, pair)])) = h.keys.map h.last? := by
    refine List.map_congr_left fun j hj => ?_
    have hne : j ≠ k := ne_of_mem_of_not_mem hj hk
    rw [History.last?_concat, if_neg hne]
  refine ⟨?_, ?_, ht.ordered.concat k pair⟩
  · rw [hkeys, List.zipIdx_append, ht.slots, ht.length_pairs, Nat.zero_add]
    rfl
  · rw [hkeys, List.map_append, List.map_append, ht.pairs, hothers, List.map_singleton,
      List.map_singleton, History.last?_concat, if_pos rfl]

/-- One more insertion is remembered with those before: the step lemma of `Records`, from
`insert_of_mem` and `insert_of_not_mem` by whether `insert` finds a slot. -/
theorem insert (ht : t.Records h) (k : HashKey) (pair : α × α) :
    (t.insert k pair).Records (h ++ [(k, pair)]) := by
  unfold Table.insert
  rw [ht.lookup_slots]
  cases hslot : h.keys.idxOf? k with
  | some slot => exact ht.insert_of_mem hslot pair
  | none => exact ht.insert_of_not_mem (List.idxOf?_eq_none_iff.1 hslot) pair

/-- So are many, by induction on the insertions that follow. Every fact about tables below starts
from it. -/
theorem insertAll (ht : t.Records h) (more : History α) :
    (t.insertAll more).Records (h ++ more) := by
  induction more generalizing t h with
  | nil => rwa [List.append_nil]
  | cons op more ih =>
      have hstep := ih (ht.insert op.1 op.2)
      rwa [List.append_assoc] at hstep

/-- The pair under a hash key is the one that was filed last. `get?` follows a slot to a pair, and
`Records` says what both are. -/
theorem get?_eq (ht : t.Records h) (k : HashKey) : t.get? k = h.last? k := by
  unfold Table.get?
  rw [ht.lookup_slots]
  cases hslot : h.keys.idxOf? k with
  | some slot =>
      obtain ⟨hlt, hk, -⟩ := List.idxOf?_eq_some_iff.1 hslot
      exact ht.getElem?_pairs (by rw [List.getElem?_eq_getElem hlt, hk])
  | none =>
      have hmem := mt History.mem_keys.2 (List.idxOf?_eq_none_iff.1 hslot)
      exact (History.last?_eq_none.2 hmem).symm

/-- Every slot leads to a pair, as slots count `keys` and there is one pair for each. -/
theorem slot_lt (ht : t.Records h) {k : HashKey} {slot : Nat} (hslot : (k, slot) ∈ t.slots) :
    slot < t.pairs.length := by
  rw [ht.slots, List.mem_zipIdx_iff_getElem?] at hslot
  rw [ht.length_pairs]
  exact (List.getElem?_eq_some_iff.1 hslot).1

end Records

/-- A table is a map that remembers the order of insertion.

Whatever was filed in it, and under whatever hash keys: the pair found under a hash key is the one
that was filed last under it, and there is none under a hash key that was never used. Every hash key
that was used counts once, in the order in which they were first used; that is the number of pairs,
and the pairs stand in that order, each the last one filed. No slot leads outside the pairs.

All of it is read off the invariant `Records`, which `Records.insertAll` carries from the empty
table through any history. -/
theorem ofHistory_remembers (h : History α) :
    (∀ k, (ofHistory h).get? k = h.last? k ∧ (h.last? k = none ↔ k ∉ h.map Prod.fst)) ∧
    (∃ keys : List HashKey,
      (∀ k, k ∈ keys ↔ k ∈ h.map Prod.fst) ∧
      (keys.Pairwise fun j k => h.firstUse j < h.firstUse k) ∧
      (ofHistory h).size = keys.length ∧
      (ofHistory h).pairs.map some = keys.map h.last?) ∧
    ((ofHistory h).isEmpty = true ↔ (ofHistory h).size = 0) ∧
    ∀ k slot, (k, slot) ∈ (ofHistory h).slots → slot < (ofHistory h).pairs.length := by
  have hrecords : (ofHistory h).Records h := Records.nil.insertAll h
  refine ⟨fun k => ⟨hrecords.get?_eq k, History.last?_eq_none⟩, ?_, ?_, fun k slot => ?_⟩
  · exact ⟨h.keys, fun k => History.mem_keys, hrecords.ordered, hrecords.length_pairs,
      hrecords.pairs⟩
  · rw [isEmpty, size, List.isEmpty_iff, List.length_eq_zero_iff]
  · exact hrecords.slot_lt

/-- One hash key is used again, with another that has the same bits and another kind between its two
uses: the second pair stands where the first one stood. -/
theorem ofHistory_remembers_of_overwrite :
    let h : History Nat :=
      [(.word .integer 1, (1, 10)), (.word .boolean 1, (2, 20)), (.word .integer 1, (3, 30))]
    (ofHistory h).get? (.word .integer 1) = some (3, 30) ∧
      (ofHistory h).pairs = [(3, 30), (2, 20)] ∧
      (HashKey.word .boolean 1, 1) ∈ (ofHistory h).slots ∧ 1 < (ofHistory h).pairs.length := by
  intro h
  obtain ⟨hget, -, -, hslots⟩ := ofHistory_remembers h
  have hslot : (HashKey.word .boolean 1, 1) ∈ (ofHistory h).slots := by decide
  exact ⟨(hget _).1.trans (by decide), by decide, hslot, hslots _ _ hslot⟩

end Table

end Monkey
