import Monkey.Proofs.Value.Insertions
import Monkey.Proofs.Value.Sameness

/-!
# `Monkey.Proofs.Value.Keys`: tables of values filed under their own keys

A hash files its pairs under the hash keys of their own keys. Two keys
have one hash key exactly if they are the same value: the kind stands in
the hash key beside the bits, and the bits tell integers of one width
apart, negative ones too. So what a table says of hash keys
(`Monkey.Proofs.Value.Insertions`) can be said of the keys themselves.

* `Value.IsKey` holds of the values that can be keys;
  `Value.hashKey?_eq_iff` says when two of them have one hash key.
* `Table.ofPairs` files pairs in order, each under its own key.
* `Table.index_ofPairs_of_last` and `Table.index_ofPairs_of_unused` say
  what is found in such a table, `Table.keys_ofPairs` in which order its
  keys stand, and `Table.ofPairs_of_nodup` that pairs with keys of
  their own stand as they were given.
-/

set_option autoImplicit false

namespace Monkey

/-! ### Keys -/

namespace Value

/-- The values that can be keys: integers, booleans and strings. -/
def IsKey (v : Value) : Prop := v.kind ∈ [.integer, .boolean, .string]

/-- Just these have a hash key, so `IsKey`, which speaks of the kind of a value, is the domain of
`hashKey?`. -/
theorem isKey_iff {v : Value} : v.IsKey ↔ ∃ k, v.hashKey? = some k := by
  cases v <;> simp [IsKey, kind, hashKey?]

/-- Whether keys can be keys is a matter of the keys alone. With it the hypothesis `IsKey` passes
from pairs to pairs that differ only in their values. -/
theorem isKey_of_map_eq {ps qs : List (Value × Value)} (h : ∀ p ∈ ps, p.1.IsKey)
    (heq : ps.map Prod.fst = qs.map Prod.fst) : ∀ q ∈ qs, q.1.IsKey := by
  have hkeys : ∀ K ∈ ps.map Prod.fst, K.IsKey := List.forall_mem_map.2 h
  rw [heq] at hkeys
  exact List.forall_mem_map.1 hkeys

/-- A hash key belongs to one value only: an integer, a boolean or a text can be read off it. For
strings it is the text itself that is the key, as `HashKey.text` has it. -/
theorem eq_of_hashKey? {a b : Value} {k : HashKey} (ha : a.hashKey? = some k)
    (hb : b.hashKey? = some k) : a = b := by
  have hkeys : a.hashKey? = b.hashKey? := ha.trans hb.symm
  -- Hash keys of two kinds differ in the kind, and those of one kind in what they hold.
  cases a with
  | integer n =>
      cases b with
      | integer m =>
          have hbits : n.toUInt64 = m.toUInt64 := by simpa [hashKey?] using hkeys
          exact congrArg (fun bits => Value.integer (Int64.ofUInt64 bits)) hbits
      | boolean r => simp [hashKey?] at hkeys
      | string t => simp [hashKey?] at hkeys
      | _ => cases hb
  | boolean r =>
      cases b with
      | integer m => simp [hashKey?] at hkeys
      | boolean q =>
          have hbits : r.toUInt64 = q.toUInt64 := by simpa [hashKey?] using hkeys
          have hinj : ∀ r q : Bool, r.toUInt64 = q.toUInt64 → r = q := by decide
          rw [hinj r q hbits]
      | string t => simp [hashKey?] at hkeys
      | _ => cases hb
  | string s =>
      cases b with
      | integer m => simp [hashKey?] at hkeys
      | boolean q => simp [hashKey?] at hkeys
      | string t => simpa [hashKey?] using hkeys
      | _ => cases hb
  | _ => cases ha

/-- So values with the same hash keys, in order, are the same values, by `eq_of_hashKey?` one after
another. Tables are compared by their hash keys first, and this brings the comparison back to the
keys. -/
theorem eq_of_map_hashKey? {as bs : List Value} {ks : List HashKey}
    (ha : as.map hashKey? = ks.map some) (hb : bs.map hashKey? = ks.map some) : as = bs := by
  induction ks generalizing as bs with
  | nil => rw [List.map_eq_nil_iff.1 ha, List.map_eq_nil_iff.1 hb]
  | cons k ks ih =>
      obtain ⟨a, as', rfl, hak, has⟩ := List.map_eq_cons_iff.1 ha
      obtain ⟨b, bs', rfl, hbk, hbs⟩ := List.map_eq_cons_iff.1 hb
      rw [eq_of_hashKey? hak hbk, ih has hbs]

/-- To a host a key is the same as itself alone: on the kinds of `IsKey` there are no identities to
disregard, so `==` is equality. -/
theorem beq_iff_eq_of_isKey {a : Value} (ha : a.IsKey) (b : Value) : (a == b) = true ↔ a = b := by
  show Value.same a b = true ↔ a = b
  cases a with
  | integer n => cases b <;> simp [same]
  | boolean r => cases b <;> simp [same]
  | string s => cases b <;> simp [same]
  | _ => simp [IsKey, kind] at ha

/-- Two keys have one hash key exactly if a host takes them for the same. Both sides come to
equality, by `eq_of_hashKey?` and `beq_iff_eq_of_isKey`. -/
theorem hashKey?_eq_iff {a b : Value} (ha : a.IsKey) (hb : b.IsKey) :
    a.hashKey? = b.hashKey? ↔ (a == b) = true := by
  obtain ⟨k, hk⟩ := isKey_iff.1 ha
  rw [beq_iff_eq_of_isKey ha]
  constructor
  · intro heq
    exact eq_of_hashKey? hk (heq ▸ hk)
  · rintro rfl
    rfl

/-- A hash has for a key the value that is filed under its hash key, or else `null`. It is the
equation by which `index` is replaced by `get?` from here on. -/
theorem index_hash {K : Value} {k : HashKey} (hk : K.hashKey? = some k) (i : Identity)
    (t : Table Value) : (Value.hash i t).index K = ((t.get? k).map Prod.snd).getD .null := by
  simp only [index, hk]

end Value

/-! ### First occurrences -/

/-- Where equality is the same before and after `f`, duplicates are, and `eraseDups` may be taken
before or after. The recursion is on the length, as that of `eraseDups`. -/
theorem eraseDups_map {α β : Type} [BEq α] [BEq β] {f : α → β} {l : List α}
    (h : ∀ a ∈ l, ∀ b ∈ l, (f a == f b) = (a == b)) :
    (l.map f).eraseDups = l.eraseDups.map f := by
  cases l with
  | nil => rfl
  | cons a as =>
      have hfirst : (as.map f).filter (fun y => !y == f a) =
          (as.filter fun x => !x == a).map f := by
        rw [List.filter_map]
        refine congrArg (List.map f) (List.filter_congr fun x hx => ?_)
        show (!f x == f a) = !x == a
        rw [h x (List.mem_cons_of_mem a hx) a List.mem_cons_self]
      -- Behind its first member the list goes on without duplicates of that one.
      have hmem : ∀ x ∈ as.filter (fun x => !x == a), x ∈ a :: as := fun x hx =>
        List.mem_cons_of_mem a (List.mem_filter.1 hx).1
      rw [List.map_cons, List.eraseDups_cons, List.eraseDups_cons, List.map_cons, hfirst,
        eraseDups_map fun x hx y hy => h x (hmem x hx) y (hmem y hy)]
termination_by l.length
decreasing_by
  rename_i hl
  rw [hl, List.length_cons]
  exact Nat.lt_succ_of_le (List.length_filter_le _ _)

/-- Without duplicates `eraseDups` has nothing to erase. By induction, since the filter behind the
first member removes nothing. -/
theorem eraseDups_of_nodup {α : Type} [BEq α] [LawfulBEq α] {l : List α} (h : l.Nodup) :
    l.eraseDups = l := by
  induction l with
  | nil => rfl
  | cons a as ih =>
      obtain ⟨ha, has⟩ := List.nodup_cons.1 h
      have hothers : as.filter (fun b => !b == a) = as := by
        refine List.filter_eq_self.2 fun b hb => ?_
        rw [beq_eq_false_iff_ne.2 (ne_of_mem_of_not_mem hb ha), Bool.not_false]
      rw [List.eraseDups_cons, hothers, ih has]

/-! ### Histories of pairs -/

namespace History

/-- The last insertion under a hash key is the one that no other follows: `last?` looks from
the end, and goes past `later` without a hit. -/
theorem last?_append_cons {α : Type} {earlier later : History α} {k : HashKey} {pair : α × α}
    (hlater : k ∉ later.map Prod.fst) :
    last? (earlier ++ (k, pair) :: later) k = some pair := by
  have hnone : later.reverse.lookup k = none := last?_eq_none.2 hlater
  rw [last?, List.reverse_append, List.reverse_cons, List.append_assoc, List.lookup_append, hnone]
  simp

/-- A hash key that is used once has just the pair that was filed there, wherever among the
insertions that was; no insertion behind it can hide it from `last?`. -/
theorem last?_of_nodup {α : Type} {h : History α} (hnodup : (h.map Prod.fst).Nodup)
    {op : HashKey × (α × α)} (hop : op ∈ h) : h.last? op.1 = some op.2 := by
  obtain ⟨earlier, later, rfl⟩ := List.append_of_mem hop
  rw [List.map_append, List.map_cons] at hnodup
  exact last?_append_cons (List.nodup_cons.1 (List.nodup_append.1 hnodup).2.1).1

/-- Pairs filed in order, each under the hash key of its own key. -/
def ofPairs (ps : List (Value × Value)) : History Value :=
  ps.filterMap fun p => p.1.hashKey?.map fun k => (k, p)

variable {ps : List (Value × Value)}

/-- The insertions of two lists of pairs, one after the other, are those of the two lists. It lets
`index_ofPairs_of_last` take a pair out of the middle. -/
theorem ofPairs_append (ps qs : List (Value × Value)) :
    ofPairs (ps ++ qs) = ofPairs ps ++ ofPairs qs := List.filterMap_append

/-- A pair whose key has a hash key is filed first under it. Pairs whose keys have none are left
out, which an evaluated literal never has. -/
theorem ofPairs_cons {p : Value × Value} {k : HashKey} (hk : p.1.hashKey? = some k) :
    ofPairs (p :: ps) = (k, p) :: ofPairs ps := by
  rw [ofPairs, List.filterMap_cons, hk]
  rfl

/-- A pair is filed under `k` exactly if it is one of the pairs and `k` is the hash key of its key.
-/
theorem mem_ofPairs {k : HashKey} {p : Value × Value} :
    (k, p) ∈ ofPairs ps ↔ p ∈ ps ∧ p.1.hashKey? = some k := by
  simp only [ofPairs, List.mem_filterMap, Option.map_eq_some_iff, Prod.mk.injEq]
  constructor
  · rintro ⟨q, hq, j, hj, rfl, rfl⟩
    exact ⟨hq, hj⟩
  · rintro ⟨hp, hk⟩
    exact ⟨p, hp, k, hk, rfl, rfl⟩

/-- The hash key of a key that no pair has is not used: another key has another hash key, by
`eq_of_hashKey?`. -/
theorem not_mem_ofPairs {K : Value} {k : HashKey} (hk : K.hashKey? = some k)
    (h : ∀ p ∈ ps, p.1 ≠ K) : k ∉ (ofPairs ps).map Prod.fst := by
  rw [List.mem_map]
  rintro ⟨⟨j, p⟩, hp, rfl⟩
  obtain ⟨hmem, hj⟩ := mem_ofPairs.1 hp
  exact h p hmem (Value.eq_of_hashKey? hj hk)

/-- The hash keys that are used are those of the keys, in the same order, where all keys can be keys
and `ofPairs` leaves no pair out. -/
theorem map_fst_ofPairs (h : ∀ p ∈ ps, p.1.IsKey) :
    ((ofPairs ps).map Prod.fst).map some = (ps.map Prod.fst).map Value.hashKey? := by
  induction ps with
  | nil => rfl
  | cons p ps ih =>
      obtain ⟨hp, hps⟩ := List.forall_mem_cons.1 h
      obtain ⟨k, hk⟩ := Value.isKey_iff.1 hp
      rw [ofPairs_cons hk, List.map_cons, List.map_cons, List.map_cons, List.map_cons, ih hps, hk]

/-- Nothing but the pairs is filed, and each of them is, where all keys can be keys, as `IsKey`
says. -/
theorem map_snd_ofPairs (h : ∀ p ∈ ps, p.1.IsKey) : (ofPairs ps).map Prod.snd = ps := by
  induction ps with
  | nil => rfl
  | cons p ps ih =>
      obtain ⟨hp, hps⟩ := List.forall_mem_cons.1 h
      obtain ⟨k, hk⟩ := Value.isKey_iff.1 hp
      rw [ofPairs_cons hk, List.map_cons, ih hps]

/-- Where no key occurs twice, no hash key is used twice, because `hashKey?` is injective on keys.
-/
theorem nodup_ofPairs (h : ∀ p ∈ ps, p.1.IsKey) (hnodup : (ps.map Prod.fst).Nodup) :
    ((ofPairs ps).map Prod.fst).Nodup := by
  have hapart : (ps.map Prod.fst).Pairwise fun a b => a.hashKey? ≠ b.hashKey? := by
    refine hnodup.imp_of_mem fun {a b} ha _ hne heq => ?_
    obtain ⟨p, hp, rfl⟩ := List.mem_map.1 ha
    obtain ⟨k, hk⟩ := Value.isKey_iff.1 (h p hp)
    exact hne (Value.eq_of_hashKey? hk (heq ▸ hk))
  have hsome : (((ofPairs ps).map Prod.fst).map some).Pairwise (· ≠ ·) := by
    rw [map_fst_ofPairs h]
    exact List.pairwise_map.2 hapart
  exact (List.pairwise_map.1 hsome).imp fun hne heq => hne (congrArg some heq)

/-- What was filed last under a hash key is one of the pairs, and its key has that hash key. Read
from `mem_ofPairs` for the place where `last?` finds it. -/
theorem mem_of_last? {k : HashKey} {p : Value × Value} (h : (ofPairs ps).last? k = some p) :
    p ∈ ps ∧ p.1.hashKey? = some k := by
  obtain ⟨before, after, hsplit, -⟩ := List.lookup_eq_some_iff.1 h
  have hmem : (k, p) ∈ (ofPairs ps).reverse := by
    rw [hsplit]
    exact List.mem_append_right _ List.mem_cons_self
  exact mem_ofPairs.1 (List.mem_reverse.1 hmem)

end History

/-! ### Tables of pairs -/

namespace Table

/-- The table of pairs filed in order, each under its own key. -/
def ofPairs (ps : List (Value × Value)) : Table Value := ofHistory (.ofPairs ps)

variable {ps : List (Value × Value)}

/-- The table of pairs records their insertions, as every table made from a history does. So the
laws of `Table.Records` are at hand for it. -/
theorem records_ofPairs (ps : List (Value × Value)) : (ofPairs ps).Records (.ofPairs ps) :=
  Records.nil.insertAll _

/-- A hash of pairs has for a key the value of the last pair with that key:
`History.last?_append_cons` finds it, as no later pair has the same hash key. -/
theorem index_ofPairs_of_last {K : Value} (hK : K.IsKey) (i : Identity) (V : Value)
    {earlier later : List (Value × Value)} (hlater : ∀ p ∈ later, p.1 ≠ K) :
    (Value.hash i (ofPairs (earlier ++ (K, V) :: later))).index K = V := by
  obtain ⟨k, hk⟩ := Value.isKey_iff.1 hK
  rw [Value.index_hash hk, (records_ofPairs _).get?_eq, History.ofPairs_append,
    History.ofPairs_cons (p := (K, V)) hk,
    History.last?_append_cons (History.not_mem_ofPairs hk hlater)]
  rfl

/-- For a key that no pair has it has `null`, by `History.not_mem_ofPairs` and the second half of
what a table remembers. -/
theorem index_ofPairs_of_unused {K : Value} (hK : K.IsKey) (i : Identity)
    (h : ∀ p ∈ ps, p.1 ≠ K) : (Value.hash i (ofPairs ps)).index K = .null := by
  obtain ⟨k, hk⟩ := Value.isKey_iff.1 hK
  rw [Value.index_hash hk, (records_ofPairs _).get?_eq,
    History.last?_eq_none.2 (History.not_mem_ofPairs hk h)]
  rfl

/-- The pairs of the table are filed under the hash keys that were used, in order of first use. Each
pair stands at the place that its own key has, by `getElem?_pairs` and `History.mem_of_last?`. -/
theorem hashKeys_ofPairs (ps : List (Value × Value)) :
    ((ofPairs ps).pairs.map Prod.fst).map Value.hashKey? = (History.ofPairs ps).keys.map some := by
  have hrecords := records_ofPairs ps
  -- What stands at the place of a hash key was filed under it.
  refine List.ext_getElem ?_ fun n hn hn' => ?_
  · rw [List.length_map, List.length_map, List.length_map]
    exact hrecords.length_pairs
  · simp only [List.getElem_map, List.length_map] at hn hn' ⊢
    have hplace := hrecords.getElem?_pairs (List.getElem?_eq_getElem hn')
    rw [List.getElem?_eq_getElem hn] at hplace
    exact (History.mem_of_last? hplace.symm).2

/-- The table has one pair for each key, in the order in which the keys occur first:
`hashKeys_ofPairs`, carried from hash keys to keys by `eraseDups_map`. -/
theorem keys_ofPairs (h : ∀ p ∈ ps, p.1.IsKey) :
    (ofPairs ps).pairs.map Prod.fst = (ps.map Prod.fst).eraseDups := by
  have hkeys : ∀ a ∈ ps.map Prod.fst, a.IsKey := List.forall_mem_map.2 h
  have hsame : ∀ a ∈ ps.map Prod.fst, ∀ b ∈ ps.map Prod.fst,
      (a.hashKey? == b.hashKey?) = (a == b) := fun a ha b hb => by
    rw [Bool.eq_iff_iff, beq_iff_eq]
    exact Value.hashKey?_eq_iff (hkeys a ha) (hkeys b hb)
  have hsome : ∀ j ∈ (History.ofPairs ps).map Prod.fst, ∀ k ∈ (History.ofPairs ps).map Prod.fst,
      (some j == some k) = (j == k) := fun j _ k _ => rfl
  -- Both sides are known by their hash keys, of which duplicates are erased as of the keys.
  refine Value.eq_of_map_hashKey? (hashKeys_ofPairs ps) ?_
  rw [← eraseDups_map hsame, ← History.map_fst_ofPairs h, eraseDups_map hsome, History.keys]

/-- A pair of the table was filed, and is the one that is found under its key. Every place of the
table belongs to a hash key, where `get?` looks. -/
theorem get?_of_mem_ofPairs {p : Value × Value} (hp : p ∈ (ofPairs ps).pairs) :
    p ∈ ps ∧ ∃ k, p.1.hashKey? = some k ∧ (ofPairs ps).get? k = some p := by
  have hmem : some p ∈ (ofPairs ps).pairs.map some := List.mem_map_of_mem hp
  rw [(records_ofPairs ps).pairs, List.mem_map] at hmem
  obtain ⟨k, -, hlast⟩ := hmem
  obtain ⟨hmem, hk⟩ := History.mem_of_last? hlast
  exact ⟨hmem, k, hk, (records_ofPairs ps).get?_eq k ▸ hlast⟩

/-- Each pair of the table holds the value that the hash has for its key, so that the list of pairs
can be told from keys and `index` alone. -/
theorem pairs_ofPairs (h : ∀ p ∈ ps, p.1.IsKey) (i : Identity) :
    (ofPairs ps).pairs =
      (ps.map Prod.fst).eraseDups.map fun K => (K, (Value.hash i (ofPairs ps)).index K) := by
  have hpair : ∀ p ∈ (ofPairs ps).pairs,
      (p.1, (Value.hash i (ofPairs ps)).index p.1) = p := fun p hp => by
    obtain ⟨-, k, hk, hget⟩ := get?_of_mem_ofPairs hp
    rw [Value.index_hash hk, hget]
    rfl
  rw [← keys_ofPairs h, List.map_map]
  exact ((List.map_congr_left hpair).trans (List.map_id _)).symm

/-- Pairs with keys of their own stand in the table as they were given, and the slots count them. No
insertion replaces another one then, and `eraseDups` takes nothing away. -/
theorem ofPairs_of_nodup (hkeys : ∀ p ∈ ps, p.1.IsKey) (h : (ps.map Prod.fst).Nodup) :
    (ofPairs ps).pairs = ps ∧
      (ofPairs ps).slots = ((History.ofPairs ps).map Prod.fst).zipIdx := by
  have hrecords := records_ofPairs ps
  have hnodup := History.nodup_ofPairs hkeys h
  -- `History.last?` may give none, so the pairs are compared under `some`.
  have hpairs : (ofPairs ps).pairs.map some = ps.map some := calc
    (ofPairs ps).pairs.map some
        = (History.ofPairs ps).map fun op => (History.ofPairs ps).last? op.1 := by
          rw [hrecords.pairs, History.keys, eraseDups_of_nodup hnodup, List.map_map]
          rfl
    _ = (History.ofPairs ps).map fun op => some op.2 :=
          List.map_congr_left fun op hop => History.last?_of_nodup hnodup hop
    _ = ((History.ofPairs ps).map Prod.snd).map some := List.map_map.symm
    _ = ps.map some := by rw [History.map_snd_ofPairs hkeys]
  refine ⟨(List.map_inj_right fun _ _ heq => Option.some.inj heq).1 hpairs, ?_⟩
  rw [hrecords.slots, History.keys, eraseDups_of_nodup hnodup]

/-- No key has two pairs, as the `keys` of a history are listed without duplicates. -/
theorem nodup_keys_ofPairs (ps : List (Value × Value)) :
    ((ofPairs ps).pairs.map Prod.fst).Nodup := by
  have hordered : (History.ofPairs ps).keys.Nodup :=
    (records_ofPairs ps).ordered.imp fun {j k} hlt (heq : j = k) => Nat.ne_of_lt hlt (heq ▸ rfl)
  have hkeys : (((ofPairs ps).pairs.map Prod.fst).map Value.hashKey?).Pairwise (· ≠ ·) := by
    rw [hashKeys_ofPairs]
    exact List.pairwise_map.2 (hordered.imp fun hne heq => hne (Option.some.inj heq))
  exact (List.pairwise_map.1 hkeys).imp fun hne heq => hne (congrArg _ heq)

/-- Filing the pairs of the table once more, in order, makes the same table: its keys are without
duplicates, and `ofPairs_of_nodup` gives pairs and slots. -/
theorem ofPairs_pairs (h : ∀ p ∈ ps, p.1.IsKey) : ofPairs (ofPairs ps).pairs = ofPairs ps := by
  have hkeys : ∀ p ∈ (ofPairs ps).pairs, p.1.IsKey := fun p hp =>
    h p (get?_of_mem_ofPairs hp).1
  obtain ⟨hpairs, hslots⟩ := ofPairs_of_nodup hkeys (nodup_keys_ofPairs ps)
  have huses : (History.ofPairs (ofPairs ps).pairs).map Prod.fst = (History.ofPairs ps).keys :=
    (List.map_inj_right fun _ _ heq => Option.some.inj heq).1
      ((History.map_fst_ofPairs hkeys).trans (hashKeys_ofPairs ps))
  rw [huses, ← (records_ofPairs ps).slots] at hslots
  calc ofPairs (ofPairs ps).pairs
      = ⟨(ofPairs (ofPairs ps).pairs).pairs, (ofPairs (ofPairs ps).pairs).slots⟩ := rfl
    _ = ⟨(ofPairs ps).pairs, (ofPairs ps).slots⟩ := by rw [hpairs, hslots]
    _ = ofPairs ps := rfl

/-- The slots depend on the hash keys alone: they count the hash keys in order, which
`hashKeys_ofPairs` reads off the pairs. -/
theorem slots_ofPairs_of_hashKeys {ps qs : List (Value × Value)}
    (h : ((ofPairs ps).pairs.map Prod.fst).map Value.hashKey? =
      ((ofPairs qs).pairs.map Prod.fst).map Value.hashKey?) :
    (ofPairs ps).slots = (ofPairs qs).slots := by
  rw [hashKeys_ofPairs, hashKeys_ofPairs] at h
  rw [(records_ofPairs ps).slots, (records_ofPairs qs).slots,
    (List.map_inj_right fun _ _ heq => Option.some.inj heq).1 h]

/-- Pairs with keys of their own have the slots of their keys, whatever the values under them. A
rebuilt hash is compared with the original in this way, in `PairsRebuild.hash`. -/
theorem slots_ofPairs_congr {qs : List (Value × Value)} (hkeys : ∀ p ∈ ps, p.1.IsKey)
    (hnodup : (ps.map Prod.fst).Nodup) (heq : ps.map Prod.fst = qs.map Prod.fst) :
    (ofPairs ps).slots = (ofPairs qs).slots := by
  have hkeys' : ∀ q ∈ qs, q.1.IsKey := Value.isKey_of_map_eq hkeys heq
  refine slots_ofPairs_of_hashKeys ?_
  rw [(ofPairs_of_nodup hkeys hnodup).1, (ofPairs_of_nodup hkeys' (heq ▸ hnodup)).1, heq]

end Table

end Monkey
