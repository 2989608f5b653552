import Monkey.Proofs.Eval.Content
import Monkey.Proofs.Syntax.CanonicalText
import Monkey.Proofs.Value.Keys

/-!
# `Monkey.Proofs.Value.Plain`: plain data and its text

Integers and booleans, and the arrays and hashes made of them, have a text
that consists of words, numbers and punctuation, and their parts stand in
it one beside the other. How such a text is read can be told from its
parts: whatever comes behind it and keeps apart from a word, it is read as
the same lexemes (`ReadAs`).

* `Value.Plain` holds of plain data, `Value.Plain.induct` is the induction
  over it.
* `Value.lexemes` are the lexemes of a value's text; `Value.Plain.legible`
  says that the text of plain data is read as them wherever it stands, and
  `Value.Plain.lexemes_array` and `Value.Plain.lexemes_hash` what they are.
* `Value.PartOf.lexemes_subset`: the lexemes of a part are among those of
  the whole.
-/

set_option autoImplicit false

namespace Monkey

/-! ### Plain data -/

/-- Integers and booleans, arrays of plain data, and hashes that were made by filing plain data in
order under integers and booleans. -/
inductive Value.Plain : Value → Prop where
  | integer (n : Int64) : Plain (.integer n)
  | boolean (b : Bool) : Plain (.boolean b)
  | array (i : Identity) {vs : List Value} (h : ∀ v ∈ vs, v.Plain) : Plain (.array i vs)
  | hash (i : Identity) {ps : List (Value × Value)}
      (hkeys : ∀ p ∈ ps, (∃ n, p.1 = .integer n) ∨ ∃ b, p.1 = .boolean b)
      (hvalues : ∀ p ∈ ps, p.2.Plain) : Plain (.hash i (Table.ofPairs ps))

namespace Value.Plain

/-- The elements of an array of plain data are plain data, by the only constructor of `Plain` that
makes arrays. -/
theorem elements {i : Identity} {vs : List Value} (h : (Value.array i vs).Plain) :
    ∀ v ∈ vs, v.Plain := by
  cases h with
  | array _ h => exact h

/-- The keys and values of a hash of plain data are plain data. The keys can be keys, and no two of
them are the same, by `Table.nodup_keys_ofPairs`. -/
theorem pairs {i : Identity} {t : Table Value} (h : (Value.hash i t).Plain) :
    (∀ p ∈ t.pairs, p.1.IsKey ∧ p.1.Plain ∧ p.2.Plain) ∧ (t.pairs.map Prod.fst).Nodup := by
  cases h with
  | @hash _ ps hkeys hvalues =>
      refine ⟨fun p hp => ?_, Table.nodup_keys_ofPairs ps⟩
      obtain ⟨hmem, -⟩ := Table.get?_of_mem_ofPairs hp
      rcases hkeys p hmem with ⟨n, hkey⟩ | ⟨b, hkey⟩
      · rw [hkey]
        exact ⟨by simp [IsKey, kind], .integer n, hvalues p hmem⟩
      · rw [hkey]
        exact ⟨by simp [IsKey, kind], .boolean b, hvalues p hmem⟩

/-- Filing the pairs of the hash in order makes it again, because it was made so in the first place.
`Table.ofPairs_pairs` for plain data. -/
theorem ofPairs_pairs {i : Identity} {t : Table Value} (h : (Value.hash i t).Plain) :
    Table.ofPairs t.pairs = t := by
  cases h with
  | @hash _ ps hkeys _ =>
      refine Table.ofPairs_pairs fun p hp => ?_
      rcases hkeys p hp with ⟨n, hkey⟩ | ⟨b, hkey⟩ <;> simp [hkey, IsKey, kind]

/-- What holds of integers and booleans, and of arrays and hashes if it holds of what is in them,
holds of plain data. The pairs of a hash are fewer than those filed, so `Plain` itself does not give
this form. -/
theorem induct {motive : Value → Prop} (integer : ∀ n, motive (.integer n))
    (boolean : ∀ b, motive (.boolean b))
    (array : ∀ i vs, (Value.array i vs).Plain → (∀ v ∈ vs, motive v) → motive (.array i vs))
    (hash : ∀ i t, (Value.hash i t).Plain →
      (∀ p ∈ t.pairs, motive p.1 ∧ motive p.2) → motive (.hash i t))
    {v : Value} (h : v.Plain) : motive v := by
  induction h with
  | integer n => exact integer n
  | boolean b => exact boolean b
  | array i h ih => exact array i _ (.array i h) ih
  | hash i hkeys hvalues ih =>
      refine hash i _ (.hash i hkeys hvalues) fun p hp => ?_
      obtain ⟨hmem, -⟩ := Table.get?_of_mem_ofPairs hp
      refine ⟨?_, ih p hmem⟩
      rcases hkeys p hmem with ⟨n, hkey⟩ | ⟨b, hkey⟩
      · exact hkey ▸ integer n
      · exact hkey ▸ boolean b

/-- Plain data is no signal, so it is handed on by every expression and never ends a loop, in the
sense of `unlessSignal`. -/
theorem isSignal_eq {v : Value} (h : v.Plain) : v.isSignal = false := by
  cases h <;> rfl

end Value.Plain

/-! ### How a text is read -/

/-- What is in one of several lists is in the lists with a separator between them. The induction
follows `List.intercalate_cons_cons`. -/
theorem mem_intercalate {α : Type} (sep : List α) {l : List α} {ls : List (List α)} (hl : l ∈ ls)
    {a : α} (ha : a ∈ l) : a ∈ sep.intercalate ls := by
  induction ls with
  | nil => cases hl
  | cons first ls ih =>
      cases ls with
      | nil =>
          rw [List.mem_singleton.1 hl] at ha
          simpa using ha
      | cons second ls =>
          rw [List.intercalate_cons_cons]
          rcases List.mem_cons.1 hl with rfl | hl
          · exact List.mem_append_left _ (List.mem_append_left _ ha)
          · exact List.mem_append_right _ (ih hl)

/-- In front of a text that keeps apart from a word, the text is read as these lexemes. -/
def ReadAs (text : String) (ts : List Lexeme) : Prop :=
  ∀ rest : List Char, EndsWord rest → scan (text.toList ++ rest) = ts ++ scan rest

namespace ReadAs

variable {text : String} {ts : List Lexeme}

/-- It is read so by itself, too, with nothing behind it. `ReadAs` is stated for every rest, so that
texts can be put together. -/
theorem scan_eq (h : ReadAs text ts) : scan text.toList = ts := by
  have halone := h [] endsWord_nil
  rwa [List.append_nil, scan_nil, List.append_nil] at halone

/-- A reserved word is read as that word, where what follows does not continue it, which `EndsWord`
says of the rest. -/
theorem word (k : Keyword) : ReadAs k.text [.keyword k] := fun _ hrest => scan_reserved k hrest

/-- A run of digits is read as one number, where what follows is neither a digit nor part of a word;
`EndsWord` says both. -/
theorem digits (n : Nat) : ReadAs n.repr [.integer n.repr] := by
  intro rest hrest
  refine scan_source_of_endsWord (t := .integer n.repr) ?_ (by simp) hrest
  rw [Lexeme.Genuine, Nat.toList_repr]
  exact ⟨Nat.toDigits_ne_nil, fun c hc => Nat.isDigit_of_mem_toDigits (by decide) (by decide) hc⟩

/-- A minus sign in front is read by itself, since no operator goes on behind one. Hence a negative
integer is two lexemes in `readAs_of_neg`. -/
theorem negated (h : ReadAs text ts) : ReadAs ("-" ++ text) (.symbol .minus :: ts) := by
  intro rest hrest
  have hminus : scan (Symbol.minus.text.toList ++ (text.toList ++ rest)) =
      .symbol .minus :: scan (text.toList ++ rest) := scan_symbol_append .minus trivial
  rw [h rest hrest] at hminus
  simpa [Symbol.text] using hminus

/-- Brackets around a text are read by themselves, on both sides, since a closing bracket keeps the
text apart from what follows, as `EndsWord` asks. -/
theorem bracketed (h : ReadAs text ts) :
    ReadAs ("[" ++ text ++ "]") (.symbol .leftBracket :: (ts ++ [.symbol .rightBracket])) := by
  intro rest _
  -- The closing bracket keeps apart from the last word inside, whatever comes behind it.
  have hinside := h _ (endsWord_cons (c := ']') rfl rest)
  simp [scan_punctuation, hinside]

/-- Braces around a text are read by themselves, as brackets are in `bracketed`. -/
theorem braced (h : ReadAs text ts) :
    ReadAs ("\x7b" ++ text ++ "\x7d") (.symbol .leftBrace :: (ts ++ [.symbol .rightBrace])) := by
  intro rest _
  have hinside := h _ (endsWord_cons (c := '}') rfl rest)
  simp [scan_punctuation, hinside]

/-- A colon stands between a key and its value, and keeps the two apart: the text of the key ends
before it, and a space follows. -/
theorem pair {other : String} {us : List Lexeme} (h : ReadAs text ts) (h' : ReadAs other us) :
    ReadAs (text ++ ": " ++ other) (ts ++ .symbol .colon :: us) := by
  intro rest hrest
  have hkey : ∀ cs, scan (text.toList ++ ':' :: ' ' :: cs) = ts ++ .symbol .colon :: scan cs :=
    fun cs => by
      rw [h _ (endsWord_cons rfl _), (scan_punctuation _).2.2.2.2.2.2.2.1, scan_space_cons]
  simp [hkey, h' rest hrest]

/-- Texts in a row are read one after another, with commas between them, as `intercalate` puts them.
Induction on the list, where a comma stands before all but the first. -/
theorem joined {α : Type} {l : List α} {f : α → String} {g : α → List Lexeme}
    (h : ∀ a ∈ l, ReadAs (f a) (g a)) :
    ReadAs (", ".intercalate (l.map f)) ([.symbol .comma].intercalate (l.map g)) := by
  intro rest hrest
  induction l with
  | nil => simp
  | cons a l ih =>
      obtain ⟨ha, hl⟩ := List.forall_mem_cons.1 h
      cases l with
      | nil => simpa using ha rest hrest
      | cons b l =>
          -- The comma keeps the first text apart from the others.
          have hfirst : ∀ cs, scan ((f a).toList ++ ',' :: ' ' :: cs) =
              g a ++ .symbol .comma :: scan cs := fun cs => by
            rw [ha _ (endsWord_cons rfl _), (scan_punctuation _).2.2.2.2.2.2.1, scan_space_cons]
          have hothers := ih hl
          simp only [List.map_cons] at hothers ⊢
          rw [String.intercalate_cons_cons, List.intercalate_cons_cons]
          simp [hfirst, hothers, -String.toList_intercalate]

end ReadAs

/-! ### The text of plain data -/

namespace Value

/-- The lexemes of a value's text. -/
def lexemes (v : Value) : List Lexeme := scan v.inspect.toList

/-- The value's text is read as the same lexemes wherever it stands. -/
def Legible (v : Value) : Prop := ReadAs v.inspect v.lexemes

/-- The lexemes are those that the text is read as, by `scan_eq`. So a value is `Legible` as soon as
some list of lexemes is known. -/
theorem Legible.of_readAs {v : Value} {ts : List Lexeme} (h : ReadAs v.inspect ts) :
    v.Legible ∧ v.lexemes = ts := by
  have heq : v.lexemes = ts := h.scan_eq
  refine ⟨?_, heq⟩
  rw [Legible, heq]
  exact h

/-- The text of an integer that is not negative is a run of digits, as `Numeral.write` has it
without a sign. -/
theorem readAs_of_nonneg {n : Int64} (h : 0 ≤ n.toInt) :
    ReadAs (Value.integer n).inspect [.integer n.toInt.toNat.repr] := by
  have htext : (Value.integer n).inspect = n.toInt.toNat.repr := by
    rw [inspect, Numeral.write, Int.toString_eq_repr, Int.repr_eq_if, if_pos h]
  rw [htext]
  exact .digits _

/-- A negative integer has a minus sign in front of its digits, and both are read, by `negated` and
`digits`. -/
theorem readAs_of_neg {n : Int64} (h : n.toInt < 0) :
    ReadAs (Value.integer n).inspect
      [.symbol .minus, .integer (-n.toInt).toNat.repr] := by
  have htext : (Value.integer n).inspect = "-" ++ (-n.toInt).toNat.repr := by
    rw [inspect, Numeral.write, Int.toString_eq_repr, Int.repr_eq_if, if_neg (by omega)]
  rw [htext]
  exact (ReadAs.digits _).negated

/-- The text of a boolean is a reserved word, and `word` says how it is read. -/
theorem readAs_boolean (b : Bool) :
    ReadAs (Value.boolean b).inspect [.keyword (if b then .trueKw else .falseKw)] := by
  cases b with
  | true =>
      rw [inspect]
      exact .word .trueKw
  | false =>
      rw [inspect]
      exact .word .falseKw

/-- The elements of an array stand one after another between brackets: `joined` for the elements,
and `bracketed` around them. -/
theorem readAs_array {vs : List Value} (h : ∀ v ∈ vs, v.Legible) (i : Identity) :
    ReadAs (Value.array i vs).inspect
      (.symbol .leftBracket ::
        ([.symbol .comma].intercalate (vs.map lexemes) ++ [.symbol .rightBracket])) := by
  rw [inspect, inspectList_eq_map]
  exact (ReadAs.joined h).bracketed

/-- The pairs of a hash stand one after another between braces: `pair` for each of them, `joined`
for all, and `braced` around them. -/
theorem readAs_hash {t : Table Value} (h : ∀ p ∈ t.pairs, p.1.Legible ∧ p.2.Legible)
    (i : Identity) :
    ReadAs (Value.hash i t).inspect
      (.symbol .leftBrace ::
        ([.symbol .comma].intercalate
          (t.pairs.map fun p => p.1.lexemes ++ .symbol .colon :: p.2.lexemes) ++
            [.symbol .rightBrace])) := by
  rw [inspect, inspectPairs_eq_map]
  exact (ReadAs.joined fun p hp => (h p hp).1.pair (h p hp).2).braced

/-- The text of plain data is read as its lexemes wherever it stands, by `Plain.induct` with one of
the lemmas above for each kind. -/
theorem Plain.legible {v : Value} (h : v.Plain) : v.Legible := by
  refine h.induct ?integer ?boolean ?array ?hash
  case integer =>
    intro n
    by_cases hn : 0 ≤ n.toInt
    · exact (Legible.of_readAs (readAs_of_nonneg hn)).1
    · exact (Legible.of_readAs (readAs_of_neg (Int.not_le.1 hn))).1
  case boolean => exact fun b => (Legible.of_readAs (readAs_boolean b)).1
  case array => exact fun i vs _ ih => (Legible.of_readAs (readAs_array ih i)).1
  case hash => exact fun i t _ ih => (Legible.of_readAs (readAs_hash ih i)).1

/-- The lexemes of an array of plain data are brackets, and between them those of its elements with
commas. The form in which the grammar `Expr.Written` has an array literal. -/
theorem Plain.lexemes_array {i : Identity} {vs : List Value} (h : (Value.array i vs).Plain) :
    (Value.array i vs).lexemes = .symbol .leftBracket ::
      ([.symbol .comma].intercalate (vs.map lexemes) ++ [.symbol .rightBracket]) :=
  (readAs_array (fun v hv => (h.elements v hv).legible) i).scan_eq

/-- The lexemes of a hash of plain data are braces, and between them keys, colons and values with
commas, as the grammar `Expr.Written` has a hash literal. -/
theorem Plain.lexemes_hash {i : Identity} {t : Table Value} (h : (Value.hash i t).Plain) :
    (Value.hash i t).lexemes = .symbol .leftBrace ::
      ([.symbol .comma].intercalate
        (t.pairs.map fun p => p.1.lexemes ++ .symbol .colon :: p.2.lexemes) ++
          [.symbol .rightBrace]) := by
  refine (readAs_hash (fun p hp => ?_) i).scan_eq
  obtain ⟨-, hkey, hvalue⟩ := h.pairs.1 p hp
  exact ⟨hkey.legible, hvalue.legible⟩

/-- The lexemes of its elements are among them, by `mem_intercalate`. -/
theorem Plain.mem_lexemes_array {i : Identity} {vs : List Value} (h : (Value.array i vs).Plain)
    {v : Value} (hv : v ∈ vs) {u : Lexeme} (hu : u ∈ v.lexemes) :
    u ∈ (Value.array i vs).lexemes := by
  have hinside := mem_intercalate [.symbol .comma] (List.mem_map_of_mem hv) hu
  rw [h.lexemes_array]
  exact List.mem_cons_of_mem _ (List.mem_append_left _ hinside)

/-- The lexemes of the keys and values of a hash are among its own, by `mem_intercalate` for the
pair they stand in. -/
theorem Plain.mem_lexemes_hash {i : Identity} {t : Table Value} (h : (Value.hash i t).Plain)
    {p : Value × Value} (hp : p ∈ t.pairs) {u : Lexeme} (hu : u ∈ p.1.lexemes ∨ u ∈ p.2.lexemes) :
    u ∈ (Value.hash i t).lexemes := by
  have hpair : u ∈ p.1.lexemes ++ .symbol .colon :: p.2.lexemes :=
    List.mem_append.2 (hu.imp_right (List.mem_cons_of_mem _))
  have hmem : p.1.lexemes ++ .symbol .colon :: p.2.lexemes ∈
      t.pairs.map fun p => p.1.lexemes ++ .symbol .colon :: p.2.lexemes :=
    List.mem_map.2 ⟨p, hp, rfl⟩
  rw [h.lexemes_hash]
  exact List.mem_cons_of_mem _ (List.mem_append_left _ (mem_intercalate _ hmem hpair))

/-- The lexemes of a part stand among those of the whole, through any depth, by induction on
`PartOf`. Digits that no parser accepts in a part are therefore in the text of the whole. -/
theorem PartOf.lexemes_subset {w v : Value} (hpart : w.PartOf v) (h : v.Plain) :
    w.lexemes ⊆ v.lexemes := by
  induction hpart with
  | whole => exact List.Subset.refl _
  | element hv _ ih => exact fun u hu => h.mem_lexemes_array hv (ih (h.elements _ hv) hu)
  | key hp _ ih => exact fun u hu => h.mem_lexemes_hash hp (.inl (ih (h.pairs.1 _ hp).2.1 hu))
  | entry hp _ ih => exact fun u hu => h.mem_lexemes_hash hp (.inr (ih (h.pairs.1 _ hp).2.2 hu))
  | returned => cases h

end Value

end Monkey
