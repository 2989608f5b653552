import Monkey.Token.Lexer

/-!
# `Monkey.Proofs.Text.Lexemes`: one lexeme at the front of a text

Which lexeme is read at the front of a text depends on that lexeme and on
the text behind it, and on nothing else. `Lexeme.Genuine` holds of a
lexeme that is spelt as its class asks for, `Lexeme.EndsBefore` of a
lexeme and a text that does not go on with it, and
`Lexeme.StandsBefore` of a lexeme, illegal ones included, that may be
read in front of a text.

* `Lexeme.standsBefore_read`: what is read may be read there, and nothing
  of the text is lost.
* `Lexeme.read_of_standsBefore`: what may be read is read.
* `Lexeme.length_source_le_read`: no genuine lexeme that stands there is
  longer.
-/

set_option autoImplicit false

namespace Monkey

/-! ### Runs of characters -/

/-- A run of characters of a class `p`, in front of a text that does not go on with it, is the
longest such run: `takeWhile` gives the run, `dropWhile` the text. -/
theorem span_run {p : Char → Bool} {run rest : List Char} (hrun : ∀ c ∈ run, p c = true)
    (hrest : ∀ c, rest.head? = some c → p c = false) :
    (run ++ rest).takeWhile p = run ∧ (run ++ rest).dropWhile p = rest := by
  rw [List.takeWhile_append_of_pos hrun, List.dropWhile_append_of_pos hrun]
  cases rest with
  | nil => simp
  | cons c cs => simp [hrest c rfl]

/-! ### Genuine lexemes -/

/-- An identifier of the language: a word that starts with a letter or an underscore and is not
reserved. -/
structure IsIdentifier (name : String) : Prop where
  start : ∃ c cs, name.toList = c :: cs ∧ startsWord c = true
  word : ∀ c ∈ name.toList, continuesWord c = true
  free : Keyword.ofText? name = none

namespace Lexeme

/-- A lexeme that is spelt as its class asks for. -/
def Genuine : Lexeme → Prop
  | illegal _ => False
  | identifier name => IsIdentifier name
  | integer digits => digits.toList ≠ [] ∧ ∀ c ∈ digits.toList, c.isDigit = true
  | string content => ∀ c ∈ content.toList, insideString c = true
  | keyword _ => True
  | symbol _ => True

/-- The text behind a lexeme does not go on with it. -/
def EndsBefore : Lexeme → List Char → Prop
  | identifier _, rest => ∀ c, rest.head? = some c → continuesWord c = false
  | keyword _, rest => ∀ c, rest.head? = some c → continuesWord c = false
  | integer _, rest => ∀ c, rest.head? = some c → c.isDigit = false
  | symbol .assign, rest => rest.head? ≠ some '='
  | symbol .bang, rest => rest.head? ≠ some '='
  | _, _ => True

/-- Apart from the two operators that end with an equals sign, what a lexeme is read as depends on
the class of its first character. With the hypothesis `h` no proof has to open `read`. -/
theorem read_of_head {c : Char} {rest : List Char}
    (h : rest.head? ≠ some '=' ∨ c ≠ '=' ∧ c ≠ '!') :
    read c rest =
      match Symbol.ofChar? c with
      | some s => (.symbol s, rest)
      | none =>
        if c = '"' then readString rest
        else if c.isDigit then
          (.integer (String.ofList (c :: rest.takeWhile Char.isDigit)),
            rest.dropWhile Char.isDigit)
        else if startsWord c then
          (ofWord (String.ofList (c :: rest.takeWhile continuesWord)),
            rest.dropWhile continuesWord)
        else (.illegal (String.singleton c), rest) := by
  unfold read
  split
  -- The first two patterns are those of the operators that end with an equals sign.
  · simp at h
  · simp at h
  · rfl

/-- The start of a word is no punctuation: `Symbol.ofChar?` lists single characters, and
`startsWord` holds of none of them. -/
theorem ofChar?_of_startsWord {c : Char} (h : startsWord c = true) : Symbol.ofChar? c = none := by
  unfold Symbol.ofChar?
  split <;> first | rfl | exact absurd h (by decide)

/-- A digit is no punctuation. The classes of first characters exclude each other, so `read_of_head`
comes to one branch for each. -/
theorem ofChar?_of_isDigit {c : Char} (h : c.isDigit = true) : Symbol.ofChar? c = none := by
  unfold Symbol.ofChar?
  split <;> first | rfl | exact absurd h (by decide)

/-- The start of a word is no digit. The classes are ranges of code points here, which are compared
as numbers for `omega`. -/
theorem isDigit_of_startsWord {c : Char} (h : startsWord c = true) : c.isDigit = false := by
  rw [Bool.eq_false_iff]
  intro hdigit
  rw [Char.isDigit_iff_toNat] at hdigit
  have hclass : (decide (65 ≤ c.val ∧ c.val ≤ 90) ||
      (decide (97 ≤ c.val) && decide (c.val ≤ 122)) || c == '_') = true := h
  simp only [Bool.or_eq_true, Bool.and_eq_true, decide_eq_true_eq, beq_iff_eq,
    UInt32.le_iff_toNat_le] at hclass
  -- Letters and the underscore all come behind the digits.
  obtain ⟨hlow, hhigh⟩ := hdigit
  change 48 ≤ c.val.toNat at hlow
  change c.val.toNat ≤ 57 at hhigh
  rcases hclass with (⟨h, -⟩ | ⟨h, -⟩) | rfl
  · change 65 ≤ c.val.toNat at h
    omega
  · change 97 ≤ c.val.toNat at h
    omega
  · exact absurd hhigh (by decide)

/-- A character that a class `p` holds is none that the class does not hold. With `p` one of the
classes it rules out an equals sign, a quote or a line feed. -/
theorem ne_of_class {p : Char → Bool} {c d : Char} (hc : p c = true) (hd : p d = false) :
    c ≠ d := by
  rintro rfl
  rw [hd] at hc
  cases hc

/-- No mark is a blank, so that a symbol is read where it stands, without `skipBlanks` going past
it. -/
theorem isBlank_of_ofChar? {c : Char} {mark : Symbol} (h : Symbol.ofChar? c = some mark) :
    isBlank c = false := by
  rw [Bool.eq_false_iff]
  intro hblank
  simp only [isBlank, Bool.or_eq_true, beq_iff_eq] at hblank
  rcases hblank with ((rfl | rfl) | rfl) | rfl <;> cases h

/-- A class without blanks holds no blank. The hypothesis is a check of the four blank characters,
which `decide` does for each class. -/
theorem isBlank_of_class {p : Char → Bool} {c : Char} (hc : p c = true)
    (hblank : [' ', '\t', '\r', '\n'].all fun d => !p d) : isBlank c = false := by
  simp only [List.all_cons, List.all_nil, Bool.and_eq_true, Bool.not_eq_true'] at hblank
  obtain ⟨hspace, htab, hreturn, hfeed, -⟩ := hblank
  simp [isBlank, ne_of_class hc hspace, ne_of_class hc htab, ne_of_class hc hreturn,
    ne_of_class hc hfeed]

/-- A symbol of one character is read where no equals sign makes it longer: the branch of
`read_of_head` for punctuation. -/
theorem read_of_ofChar? {c : Char} {s : Symbol} {rest : List Char}
    (h : Symbol.ofChar? c = some s) (hrest : rest.head? ≠ some '=' ∨ c ≠ '=' ∧ c ≠ '!') :
    read c rest = (.symbol s, rest) := by
  rw [read_of_head hrest, h]

/-- A word is read as a whole, up to the first character that does not continue it, and `ofWord`
says whether it is reserved. -/
theorem read_of_word {c : Char} {run rest : List Char} (hc : startsWord c = true)
    (hrun : ∀ d ∈ run, continuesWord d = true)
    (hrest : ∀ d, rest.head? = some d → continuesWord d = false) :
    read c (run ++ rest) = (ofWord (String.ofList (c :: run)), rest) := by
  obtain ⟨htake, hdrop⟩ := span_run hrun hrest
  rw [read_of_head (.inr ⟨ne_of_class hc rfl, ne_of_class hc rfl⟩), ofChar?_of_startsWord hc]
  simp only [if_neg (ne_of_class hc rfl : c ≠ '"'), isDigit_of_startsWord hc, hc, htake, hdrop,
    Bool.false_eq_true, if_false, if_true]

/-- A run of digits is read as a whole, whatever its value: whether the number is too large is asked
by the parser, and not by `read`. -/
theorem read_of_digits {c : Char} {run rest : List Char} (hc : c.isDigit = true)
    (hrun : ∀ d ∈ run, d.isDigit = true)
    (hrest : ∀ d, rest.head? = some d → d.isDigit = false) :
    read c (run ++ rest) = (.integer (String.ofList (c :: run)), rest) := by
  obtain ⟨htake, hdrop⟩ := span_run hrun hrest
  rw [read_of_head (.inr ⟨ne_of_class hc rfl, ne_of_class hc rfl⟩), ofChar?_of_isDigit hc]
  simp only [if_neg (ne_of_class hc rfl : c ≠ '"'), hc, htake, hdrop, if_true]

/-- A string is read up to its closing quote, and the quotes are not part of its content. The class
is `insideString`: neither a quote nor a line feed. -/
theorem read_of_string {run rest : List Char} (hrun : ∀ d ∈ run, insideString d = true) :
    read '"' (run ++ '"' :: rest) = (.string (String.ofList run), rest) := by
  have hquote : ∀ d, ('"' :: rest).head? = some d → insideString d = false := by
    intro d hd
    cases hd
    decide
  obtain ⟨htake, hdrop⟩ := span_run hrun hquote
  rw [read_of_head (.inr (by decide))]
  simp only [if_true, readString, htake, hdrop]
  rfl

/-- A string that its line does not close is read up to the end of the line, and is illegal. Its
text keeps the opening quote, as the lexer has it. -/
theorem read_of_openString {run rest : List Char} (hrun : ∀ d ∈ run, insideString d = true)
    (hrest : ∀ d, rest.head? = some d → d = '\n') :
    read '"' (run ++ rest) = (.illegal (String.ofList ('"' :: run)), rest) := by
  have hstop : ∀ d, rest.head? = some d → insideString d = false := by
    intro d hd
    rw [hrest d hd]
    decide
  obtain ⟨htake, hdrop⟩ := span_run hrun hstop
  rw [read_of_head (.inr (by decide))]
  simp only [if_true, readString, htake, hdrop]
  cases rest with
  | nil => rfl
  | cons d ds =>
      obtain rfl : d = '\n' := hrest d rfl
      rfl

end Lexeme

/-! ### Genuine lexemes are read as they stand -/

/-- A genuine lexeme in front of a text that does not go on with it is read as it stands. One case
for each constructor of `Lexeme`, from the equations for `read` above. -/
theorem Lexeme.read_source_append {t : Lexeme} {rest : List Char} (h : t.Genuine)
    (hrest : t.EndsBefore rest) :
    ∃ c cs, t.source.toList = c :: cs ∧ isBlank c = false ∧ read c (cs ++ rest) = (t, rest) := by
  cases t with
  | illegal text => exact h.elim
  | identifier name =>
      obtain ⟨c, cs, hname, hc⟩ := h.start
      have hcs : ∀ d ∈ cs, continuesWord d = true := fun d hd => h.word d (by simp [hname, hd])
      have hword : ofWord (String.ofList (c :: cs)) = .identifier name := by
        rw [← hname, String.ofList_toList, ofWord, h.free]
      exact ⟨c, cs, hname, isBlank_of_class hc (by decide), hword ▸ read_of_word hc hcs hrest⟩
  | keyword k =>
      -- A reserved word is a word like any other until it is looked up.
      have hstart : ∃ c cs, k.text.toList = c :: cs ∧ startsWord c = true := by
        cases k <;> exact ⟨_, _, rfl, by decide⟩
      have hrun : k.text.toList.all continuesWord = true := by
        cases k <;> rfl
      obtain ⟨c, cs, hk, hc⟩ := hstart
      have hcs : ∀ d ∈ cs, continuesWord d = true := fun d hd =>
        List.all_eq_true.1 hrun d (by simp [hk, hd])
      have hword : ofWord (String.ofList (c :: cs)) = .keyword k := by
        rw [← hk, String.ofList_toList, ofWord, Keyword.ofText?_text]
      exact ⟨c, cs, hk, isBlank_of_class hc (by decide), hword ▸ read_of_word hc hcs hrest⟩
  | integer digits =>
      obtain ⟨hne, hdigits⟩ := h
      obtain ⟨c, cs, hcs⟩ := List.exists_cons_of_ne_nil hne
      have hc : c.isDigit = true := hdigits c (by simp [hcs])
      have hrun : ∀ d ∈ cs, d.isDigit = true := fun d hd => hdigits d (by simp [hcs, hd])
      refine ⟨c, cs, hcs, isBlank_of_class hc (by decide), ?_⟩
      rw [read_of_digits hc hrun hrest, ← hcs, String.ofList_toList]
  | string content =>
      refine ⟨'"', content.toList ++ ['"'], by simp [source], by decide, ?_⟩
      rw [List.append_assoc, List.singleton_append, read_of_string h, String.ofList_toList]
  | symbol mark =>
      cases mark with
      -- Only these two marks become longer by an equals sign.
      | assign => exact ⟨'=', [], rfl, rfl, read_of_ofChar? rfl (.inl hrest)⟩
      | bang => exact ⟨'!', [], rfl, rfl, read_of_ofChar? rfl (.inl hrest)⟩
      | equal => exact ⟨'=', ['='], rfl, rfl, rfl⟩
      | notEqual => exact ⟨'!', ['='], rfl, rfl, rfl⟩
      | _ => exact ⟨_, [], rfl, rfl, read_of_ofChar? rfl (.inr (by decide))⟩

/-! ### What is read stands where it is read -/

/-- A longest run of a class holds only characters of that class, `takeWhile` having stopped before
the first other one. -/
theorem mem_of_takeWhile {p : Char → Bool} {cs : List Char} :
    ∀ c ∈ cs.takeWhile p, p c = true :=
  List.all_eq_true.1 List.all_takeWhile

/-- A word that is read is a reserved word or an identifier, and both are `Genuine`. `ofWord` looks
it up, so that the two do not overlap. -/
theorem Lexeme.genuine_ofWord {c : Char} {run : List Char} (hc : startsWord c = true)
    (hrun : ∀ d ∈ run, continuesWord d = true) :
    (Lexeme.ofWord (String.ofList (c :: run))).Genuine := by
  unfold Lexeme.ofWord
  split
  · trivial
  · rename_i hfree
    refine ⟨⟨c, run, String.toList_ofList, hc⟩, ?_, hfree⟩
    intro d hd
    rw [String.toList_ofList] at hd
    rcases List.mem_cons.1 hd with rfl | hd
    · simp only [startsWord, continuesWord, Char.isAlphanum, Bool.or_eq_true] at hc ⊢
      exact hc.imp_left .inl
    · exact hrun d hd

namespace Lexeme

/-- Some genuine lexeme starts with the character. -/
def StartsGenuine (c : Char) : Prop := ∃ t : Lexeme, t.Genuine ∧ t.source.toList.head? = some c

/-- What is illegal in front of a text: a character that starts no genuine lexeme, or a quote and
everything up to the end of its line, with no other quote in it. -/
inductive IllegalBefore : List Char → List Char → Prop where
  | stray {c : Char} {rest : List Char} (hblank : isBlank c = false) (h : ¬ StartsGenuine c) :
      IllegalBefore [c] rest
  | openString {content rest : List Char} (h : ∀ c ∈ content, insideString c = true)
      (hend : ∀ c, rest.head? = some c → c = '\n') : IllegalBefore ('"' :: content) rest

/-- The lexeme may be read in front of the text: it is genuine and the text does not go on with it,
or it is illegal there. -/
def StandsBefore (t : Lexeme) (rest : List Char) : Prop :=
  t.Genuine ∧ t.EndsBefore rest ∨ ∃ text, t = illegal text ∧ IllegalBefore text.toList rest

/-- A symbol of one character is written with it: `Symbol.ofChar?` and `Symbol.text` undo each other
on such symbols. -/
theorem toList_text_of_ofChar? {c : Char} {s : Symbol} (h : Symbol.ofChar? c = some s) :
    s.text.toList = [c] := by
  unfold Symbol.ofChar? at h
  split at h <;> cases h <;> rfl

/-- A word is written as it stands, reserved or not, since `Keyword.text` is the word that
`Keyword.ofText?` has found. -/
theorem source_ofWord (word : String) : (ofWord word).source = word := by
  unfold ofWord
  split
  · rename_i k hk
    have htext := List.find?_some hk
    exact beq_iff_eq.1 htext
  · rfl

/-- The character behind a longest run of a class `p` is not of that class. It is what `EndsBefore`
asks of the text behind a word or a number. -/
theorem head?_dropWhile {p : Char → Bool} {cs : List Char} {c : Char}
    (h : (cs.dropWhile p).head? = some c) : p c = false := by
  have hstop := List.head?_dropWhile_not p cs
  rw [h] at hstop
  simpa using hstop

/-- The mark of an operator that an equals sign makes longer has none behind it: `read` tries the
two long operators first, which is what the two hypotheses say. -/
theorem endsBefore_symbol {c : Char} {s : Symbol} {rest : List Char}
    (hs : Symbol.ofChar? c = some s)
    (hequal : ∀ after, c = '=' → rest = '=' :: after → False)
    (hnotEqual : ∀ after, c = '!' → rest = '=' :: after → False) :
    (symbol s).EndsBefore rest := by
  have htext := toList_text_of_ofChar? hs
  cases s with
  | assign =>
      intro hhead
      obtain ⟨after, hafter⟩ := List.head?_eq_some_iff.1 hhead
      exact hequal after (List.head_eq_of_cons_eq htext.symm) hafter
  | bang =>
      intro hhead
      obtain ⟨after, hafter⟩ := List.head?_eq_some_iff.1 hhead
      exact hnotEqual after (List.head_eq_of_cons_eq htext.symm) hafter
  | _ => trivial

/-- No lexeme goes on with a blank, nor at the end of the text. None of the classes of `EndsBefore`
holds a blank, by `isBlank_of_class`. -/
theorem endsBefore_of_isBlank (t : Lexeme) {rest : List Char}
    (h : ∀ c, rest.head? = some c → isBlank c = true) : t.EndsBefore rest := by
  -- A class without blanks does not hold the character that comes next, if there is one.
  have hclass {p : Char → Bool} (hp : [' ', '\t', '\r', '\n'].all fun d => !p d) (c : Char)
      (hc : rest.head? = some c) : p c = false := by
    rw [Bool.eq_false_iff]
    intro hpc
    have hblank := isBlank_of_class hpc hp
    rw [h c hc] at hblank
    cases hblank
  have hequal : rest.head? ≠ some '=' := fun hc => by cases h '=' hc
  cases t with
  | illegal text => trivial
  | identifier name => exact hclass (by decide)
  | integer digits => exact hclass (by decide)
  | string content => trivial
  | keyword word => exact hclass (by decide)
  | symbol mark =>
      cases mark with
      | assign => exact hequal
      | bang => exact hequal
      | _ => trivial

/-- A character of no class is read as an illegal lexeme of that one character, and reading goes on
behind it. The last branch of `read_of_head`. -/
theorem read_of_no_class {c : Char} (hmark : Symbol.ofChar? c = none) (hquote : c ≠ '"')
    (hdigit : ¬ c.isDigit = true) (hstart : ¬ startsWord c = true) (rest : List Char) :
    read c rest = (.illegal (String.singleton c), rest) := by
  have hequal : c ≠ '=' ∧ c ≠ '!' := by
    constructor <;> rintro rfl <;> cases hmark
  rw [read_of_head (.inr hequal), hmark]
  simp only [if_neg hquote, if_neg hdigit, if_neg hstart]

/-- A character starts a genuine lexeme exactly if it is of one of the classes. Otherwise it would
be read as illegal, while `read_source_append` reads the lexeme. -/
theorem startsGenuine_iff {c : Char} :
    StartsGenuine c ↔
      (∃ mark, Symbol.ofChar? c = some mark) ∨ c = '"' ∨ c.isDigit = true ∨
        startsWord c = true := by
  constructor
  · rintro ⟨t, ht, hhead⟩
    refine Classical.byContradiction fun hnone => ?_
    simp only [not_or, not_exists] at hnone
    obtain ⟨hmark, hquote, hdigit, hstart⟩ := hnone
    -- The lexeme is read in front of nothing, but its first character is read as illegal.
    have hends : t.EndsBefore [] := t.endsBefore_of_isBlank fun _ hc => nomatch hc
    obtain ⟨d, cs, hsource, -, hread⟩ := read_source_append ht hends
    rw [hsource] at hhead
    cases hhead
    rw [read_of_no_class (Option.eq_none_iff_forall_ne_some.2 hmark) hquote hdigit hstart] at hread
    rw [← (Prod.mk.inj hread).1] at ht
    exact ht
  · rintro (⟨mark, hmark⟩ | rfl | hdigit | hstart)
    · exact ⟨symbol mark, trivial, by simp [source, literal, toList_text_of_ofChar? hmark]⟩
    · exact ⟨string "", by simp [Genuine], by simp [source]⟩
    · refine ⟨integer (String.singleton c), ⟨by simp, fun d hd => ?_⟩, by simp [source, literal]⟩
      rw [String.toList_singleton, List.mem_singleton] at hd
      rw [hd]
      exact hdigit
    · have hword : (ofWord (String.ofList [c])).Genuine :=
        genuine_ofWord hstart fun d hd => absurd hd List.not_mem_nil
      exact ⟨_, hword, by simp [source_ofWord]⟩

/-- A word ends before a text that does not continue it, whether `ofWord` makes a keyword or an
identifier of it. -/
theorem endsBefore_ofWord (word : String) {rest : List Char}
    (h : ∀ c, rest.head? = some c → continuesWord c = false) : (ofWord word).EndsBefore rest := by
  unfold ofWord
  split <;> exact h

/-- A string that is read ends at its closing quote, or else with its line, and then it stands there
as an illegal lexeme. The text is put together again. -/
theorem standsBefore_readString (cs : List Char) :
    (readString cs).1.StandsBefore (readString cs).2 ∧
      (readString cs).1.source.toList ++ (readString cs).2 = '"' :: cs := by
  have hrun := List.takeWhile_append_dropWhile (p := insideString) (l := cs)
  unfold readString
  dsimp only
  split
  · rename_i after heq
    refine ⟨.inl ⟨fun c hc => ?_, trivial⟩, ?_⟩
    · rw [String.toList_ofList] at hc
      exact mem_of_takeWhile c hc
    · rw [heq] at hrun
      simp [source, hrun]
  · rename_i hquote
    refine ⟨.inr ⟨_, rfl, ?_⟩, ?_⟩
    · rw [String.toList_ofList]
      refine .openString mem_of_takeWhile fun c hc => ?_
      -- What ends the run is a quote or a line feed, and no quote ends it.
      have hstop := head?_dropWhile hc
      obtain ⟨after, hafter⟩ := List.head?_eq_some_iff.1 hc
      have hne : c ≠ '"' := by
        rintro rfl
        exact hquote after hafter
      simpa [insideString, hne] using hstop
    · simp [source, literal, hrun]

/-- What is read of a text may be read there, and nothing of the text is lost. The cases are those
of `read` itself, one after another. -/
theorem standsBefore_read {c : Char} (hblank : isBlank c = false) (cs : List Char) :
    (read c cs).1.StandsBefore (read c cs).2 ∧
      (read c cs).1.source.toList ++ (read c cs).2 = c :: cs := by
  unfold read
  split
  -- The symbols of two characters, and below those of one.
  · exact ⟨.inl ⟨trivial, trivial⟩, by simp [source, literal, Symbol.text]⟩
  · exact ⟨.inl ⟨trivial, trivial⟩, by simp [source, literal, Symbol.text]⟩
  · rename_i hequal hnotEqual
    split
    · rename_i s hs
      have htext := toList_text_of_ofChar? hs
      refine ⟨.inl ⟨trivial, endsBefore_symbol hs hequal hnotEqual⟩, ?_⟩
      simp [source, literal, htext]
    · rename_i hmark
      split
      · rename_i hquote
        subst hquote
        exact standsBefore_readString cs
      · rename_i hquote
        split
        · -- Digits.
          rename_i hdigit
          have hrun := List.takeWhile_append_dropWhile (p := Char.isDigit) (l := cs)
          refine ⟨.inl ⟨⟨by simp, fun d hd => ?_⟩, fun d hd => head?_dropWhile hd⟩, ?_⟩
          · rw [String.toList_ofList] at hd
            rcases List.mem_cons.1 hd with rfl | hd
            · exact hdigit
            · exact mem_of_takeWhile d hd
          · simp [source, literal, hrun]
        · rename_i hdigit
          split
          · -- A word.
            rename_i hstart
            have hrun := List.takeWhile_append_dropWhile (p := continuesWord) (l := cs)
            refine ⟨.inl ⟨genuine_ofWord hstart mem_of_takeWhile,
              endsBefore_ofWord _ fun d hd => head?_dropWhile hd⟩, ?_⟩
            simp [source_ofWord, hrun]
          · -- None of the classes of genuine lexemes is left.
            rename_i hstart
            refine ⟨.inr ⟨_, rfl, ?_⟩, by simp [source, literal]⟩
            rw [String.toList_singleton]
            refine .stray hblank fun hstarts => ?_
            rcases startsGenuine_iff.1 hstarts with ⟨mark, hmark'⟩ | h | h | h
            · rw [hmark] at hmark'
              cases hmark'
            · exact hquote h
            · exact hdigit h
            · exact hstart h

/-- What stands in front of a text, and may be read there, is what is read. The converse of
`standsBefore_read`; together they make the cutting of a text unique. -/
theorem read_of_standsBefore {t : Lexeme} {rest : List Char} (h : t.StandsBefore rest) :
    ∃ c cs, t.source.toList = c :: cs ∧ isBlank c = false ∧ read c (cs ++ rest) = (t, rest) := by
  obtain ⟨ht, hrest⟩ | ⟨text, rfl, hillegal⟩ := h
  · exact read_source_append ht hrest
  · cases htext : text.toList with
    | nil =>
        rw [htext] at hillegal
        cases hillegal
    | cons c cs =>
        have hsource : text = String.ofList (c :: cs) := by rw [← htext, String.ofList_toList]
        rw [htext] at hillegal
        refine ⟨c, cs, htext, ?_⟩
        cases hillegal with
        -- Such a character is of none of the classes, so the last branch reads it.
        | stray hblank h =>
            simp only [startsGenuine_iff, not_or, not_exists] at h
            obtain ⟨hmark, hquote, hdigit, hstart⟩ := h
            refine ⟨hblank, ?_⟩
            rw [hsource]
            have hnone := Option.eq_none_iff_forall_ne_some.2 hmark
            exact read_of_no_class hnone hquote hdigit hstart _
        | openString h hend =>
            refine ⟨by decide, ?_⟩
            rw [hsource]
            exact read_of_openString h hend

/-- What stands in front of some text stands at the end of a line too: a genuine lexeme by
`endsBefore_of_isBlank`, and an open string because its line ends. -/
theorem StandsBefore.endOfLine {t : Lexeme} {rest rest' : List Char} (h : t.StandsBefore rest)
    (hend : ∀ c, rest'.head? = some c → c = '\n') : t.StandsBefore rest' := by
  obtain ⟨ht, -⟩ | ⟨text, rfl, hillegal⟩ := h
  · refine .inl ⟨ht, t.endsBefore_of_isBlank fun c hc => ?_⟩
    rw [hend c hc]
    rfl
  · refine .inr ⟨text, rfl, ?_⟩
    -- A string that its line does not close is as long as the line.
    generalize text.toList = cs at hillegal
    cases hillegal with
    | stray hblank h => exact .stray hblank h
    | openString h _ => exact .openString h hend

/-! ### Nothing longer stands there -/

/-- How the text of a genuine lexeme goes on behind its first character: a word by word characters,
a number by digits, a string to its closing quote, and a symbol by an equals sign at most. -/
inductive GoesOn : Char → List Char → Prop where
  | word {c : Char} {cs : List Char} (hc : startsWord c = true)
      (hcs : ∀ d ∈ cs, continuesWord d = true) : GoesOn c cs
  | digits {c : Char} {cs : List Char} (hc : c.isDigit = true)
      (hcs : ∀ d ∈ cs, d.isDigit = true) : GoesOn c cs
  | string {content : List Char} (h : ∀ d ∈ content, insideString d = true) :
      GoesOn '"' (content ++ ['"'])
  | mark {c : Char} {mark : Symbol} (hc : Symbol.ofChar? c = some mark) : GoesOn c []
  | equals {c : Char} (hc : c = '=' ∨ c = '!') : GoesOn c ['=']

/-- A genuine lexeme is written with one first character and goes on as `GoesOn` says, which forgets
what the lexeme is and keeps its class. -/
theorem Genuine.goesOn {t : Lexeme} (h : t.Genuine) :
    ∃ c cs, t.source.toList = c :: cs ∧ GoesOn c cs := by
  cases t with
  | illegal text => exact h.elim
  | identifier name =>
      obtain ⟨c, cs, hname, hc⟩ := h.start
      exact ⟨c, cs, hname, .word hc fun d hd => h.word d (by simp [hname, hd])⟩
  | keyword k => cases k <;> exact ⟨_, _, rfl, .word rfl (List.all_eq_true.1 rfl)⟩
  | integer digits =>
      obtain ⟨hne, hdigits⟩ := h
      obtain ⟨c, cs, hcs⟩ := List.exists_cons_of_ne_nil hne
      refine ⟨c, cs, hcs, .digits (hdigits c (by simp [hcs])) fun d hd => ?_⟩
      exact hdigits d (by simp [hcs, hd])
  | string content => exact ⟨_, _, by simp [source], .string h⟩
  | symbol mark =>
      cases mark with
      | equal => exact ⟨_, _, rfl, .equals (.inl rfl)⟩
      | notEqual => exact ⟨_, _, rfl, .equals (.inr rfl)⟩
      | _ => exact ⟨_, _, rfl, .mark rfl⟩

/-- What is read is never empty, as it begins with the character `c`. So a symbol of one character
is no longer than what is read in its place. -/
theorem one_le_length_source_read {c : Char} (hblank : isBlank c = false) (cs : List Char) :
    1 ≤ (read c cs).1.source.toList.length := by
  obtain ⟨d, ds, hsource, -⟩ := read_of_standsBefore (standsBefore_read hblank cs).1
  rw [hsource, List.length_cons]
  exact Nat.le_add_left 1 _

/-- A run of characters of a class is no longer than the longest such run, whatever stands behind
it. -/
theorem length_takeWhile_append {p : Char → Bool} {run : List Char} (h : ∀ c ∈ run, p c = true)
    (rest : List Char) : run.length ≤ ((run ++ rest).takeWhile p).length := by
  rw [List.takeWhile_append_of_pos h, List.length_append]
  exact Nat.le_add_right _ _

/-- No genuine lexeme that stands there is longer than what is read: in each case of `GoesOn` the
characters are among those that `read` takes. -/
theorem length_source_le_read {u : Lexeme} (h : u.Genuine) {rest : List Char} {c : Char}
    {cs : List Char} (htext : u.source.toList ++ rest = c :: cs) :
    u.source.toList.length ≤ (read c cs).1.source.toList.length := by
  obtain ⟨d, ds, hsource, hgoes⟩ := h.goesOn
  rw [hsource, List.cons_append, List.cons.injEq] at htext
  obtain ⟨rfl, rfl⟩ := htext
  rw [hsource, List.length_cons]
  cases hgoes with
  | word hc hcs =>
      -- What is read is the longest run of the class, and the lexeme goes on with some run of it.
      rw [read_of_head (.inr ⟨ne_of_class hc rfl, ne_of_class hc rfl⟩), ofChar?_of_startsWord hc]
      simp only [if_neg (ne_of_class hc rfl : d ≠ '"'), isDigit_of_startsWord hc, hc,
        Bool.false_eq_true, if_false, if_true, source_ofWord, String.toList_ofList,
        List.length_cons]
      exact Nat.succ_le_succ (length_takeWhile_append hcs rest)
  | digits hc hcs =>
      rw [read_of_head (.inr ⟨ne_of_class hc rfl, ne_of_class hc rfl⟩), ofChar?_of_isDigit hc]
      simp only [if_neg (ne_of_class hc rfl : d ≠ '"'), hc, if_true, source, literal,
        String.toList_ofList, List.length_cons]
      exact Nat.succ_le_succ (length_takeWhile_append hcs rest)
  | @string content hcontent =>
      rw [List.append_assoc, List.singleton_append, read_of_string hcontent]
      simp [source]
  | mark hc => exact one_le_length_source_read (isBlank_of_ofChar? hc) _
  | equals hc =>
      -- Both operators are read as a whole, by computation.
      rcases hc with rfl | rfl
      · exact (by decide : 2 ≤ (symbol .equal).source.toList.length)
      · exact (by decide : 2 ≤ (symbol .notEqual).source.toList.length)

end Lexeme

end Monkey
