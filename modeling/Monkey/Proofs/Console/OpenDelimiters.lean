import Monkey.Console.Completeness
import Monkey.Proofs.Syntax.Acceptance
import Monkey.Proofs.Syntax.Braces
import Monkey.Proofs.Text.Segmentation

/-!
# `Monkey.Proofs.Console.OpenDelimiters`: an entry awaits what its tokens leave open

Whether an entry is finished is decided on its characters, with a flag
for strings. The lexer has the last word on what a string is, so the
question is asked again of tokens: `openFrom` reads the delimiters among
them in order, and answers with those that stay open, unless one closes
what is not the innermost.

* `awaitsFrom_source`: the characters of one token have the effect of that
  token. Behind a string the flag is down, whether the string was closed
  or ended with its line.
* `awaitsFrom_of_segmented`: so have the characters of a whole text. What
  stands between tokens is blank and has no effect.
* `nested_closes`: what is written closes all it opens (`Nested`), so that
  a program never awaits more.
-/

set_option autoImplicit false

namespace Monkey

/-! ### Delimiters among lexemes -/

namespace Delimiter

/-- The delimiter that a lexeme opens. -/
def ofOpener? : Lexeme → Option Delimiter
  | .symbol .leftParen => some paren
  | .symbol .leftBracket => some bracket
  | .symbol .leftBrace => some brace
  | _ => none

/-- The delimiter that a lexeme closes. -/
def ofCloser? : Lexeme → Option Delimiter
  | .symbol .rightParen => some paren
  | .symbol .rightBracket => some bracket
  | .symbol .rightBrace => some brace
  | _ => none

end Delimiter

/-- The delimiters that are open behind a lexeme, the innermost first. There is no answer if the
lexeme closes one that is not the innermost. -/
def openBehind (opened : List Delimiter) (t : Lexeme) : Option (List Delimiter) :=
  match Delimiter.ofOpener? t, Delimiter.ofCloser? t with
  | some d, _ => some (d :: opened)
  | none, some d => if opened.head? = some d then some opened.tail else none
  | none, none => some opened

/-- The delimiters that are open behind lexemes, unless one of them closes what is not the
innermost. -/
def openFrom (opened : List Delimiter) (ts : List Lexeme) : Option (List Delimiter) :=
  ts.foldlM openBehind opened

/-- The first lexeme opens or closes by `openBehind`, and the others go on from what is open then.
As equations of `Option`, so that a wrong closer ends it. -/
theorem openFrom_cons (opened : List Delimiter) (t : Lexeme) (ts : List Lexeme) :
    openFrom opened (t :: ts) = (openBehind opened t).bind fun left => openFrom left ts :=
  List.foldlM_cons

/-- Lexemes in two parts go through the first, and from what is open behind it through the second,
since `openFrom` is a fold. -/
theorem openFrom_append (opened : List Delimiter) (ts us : List Lexeme) :
    openFrom opened (ts ++ us) = (openFrom opened ts).bind fun left => openFrom left us :=
  List.foldlM_append

/-- A plain lexeme opens and closes nothing; `isPlain` excludes the six brackets. -/
theorem openBehind_of_isPlain {t : Lexeme} (h : t.isPlain = true) (opened : List Delimiter) :
    openBehind opened t = some opened := by
  have hopener : Delimiter.ofOpener? t = none := by
    unfold Delimiter.ofOpener?
    split <;> first | rfl | cases h
  have hcloser : Delimiter.ofCloser? t = none := by
    unfold Delimiter.ofCloser?
    split <;> first | rfl | cases h
  simp only [openBehind, hopener, hcloser]

/-- What is written closes every delimiter that it opens, and no other: `openFrom` comes back to
what was open before. One field for each way of composing texts in `Nested`. -/
theorem nested_closes : Nested fun _ ts => ∀ opened, openFrom opened ts = some opened where
  nil := fun _ => rfl
  append := by
    intro n ts us h h' opened
    rw [openFrom_append, h]
    exact h' opened
  plain := by
    intro n t ts ht h opened
    rw [openFrom_cons, openBehind_of_isPlain ht]
    exact h opened
  semicolon := by
    intro n ts h opened
    exact h opened
  enclose := by
    intro n d ts us h h' opened
    -- `h` holds over any stack, so it holds over the one with `d` on top.
    have hopen : openBehind opened (.symbol d.opener) = some (d :: opened) := by cases d <;> rfl
    have hclose : openBehind (d :: opened) (.symbol d.closer) = some opened := by
      cases d <;> rfl
    rw [openFrom_cons, hopen, Option.bind_some, openFrom_append, h, Option.bind_some, openFrom_cons,
      hclose]
    exact h' opened

namespace Console

/-! ### Characters without effect -/

/-- The characters that matter to what is open. -/
def marks : List Char := ['"', '(', '[', '{', ')', ']', '}']

/-- A character of a class that holds no mark is no mark. The check of the seven marks is left to
`decide`, class by class. -/
theorem not_mem_marks {p : Char → Bool} (hmarks : (marks.all fun d => !p d) = true) {c : Char}
    (hc : p c = true) : c ∉ marks := by
  intro hmem
  have hclass := List.all_eq_true.1 hmarks c hmem
  rw [hc] at hclass
  cases hclass

/-- Outside strings other characters have no effect: a run without `marks` may be left out, whatever
is open. -/
theorem awaitsFrom_run {run : List Char} (h : ∀ c ∈ run, c ∉ marks) (opened rest : List Char) :
    awaitsFrom opened false (run ++ rest) = awaitsFrom opened false rest := by
  induction run with
  | nil => rfl
  | cons c cs ih =>
      obtain ⟨hc, hcs⟩ := List.forall_mem_cons.1 h
      simp only [marks, List.mem_cons, not_or] at hc
      obtain ⟨hquote, hparen, hbracket, hbrace, hparen', hbracket', hbrace', -⟩ := hc
      have hopener : isOpener c = false := by simp [isOpener, hparen, hbracket, hbrace]
      have hcloser : opener? c = none := by
        unfold opener?
        split <;> first | rfl | contradiction
      rw [List.cons_append, awaitsFrom, if_neg hquote, ih hcs]
      simp [hopener, hcloser]

/-- In a string no character has an effect that the string may hold, brackets among them; only a
quote or a line feed takes `awaitsFrom` out of it. -/
theorem awaitsFrom_content {run : List Char} (h : ∀ c ∈ run, insideString c = true)
    (opened rest : List Char) :
    awaitsFrom opened true (run ++ rest) = awaitsFrom opened true rest := by
  induction run with
  | nil => rfl
  | cons c cs ih =>
      obtain ⟨hc, hcs⟩ := List.forall_mem_cons.1 h
      have hquote : c ≠ '"' := Lexeme.ne_of_class hc rfl
      have hbreak : c ≠ '\n' := Lexeme.ne_of_class hc rfl
      rw [List.cons_append, awaitsFrom, if_neg hquote, if_neg hbreak, if_pos rfl, ih hcs]

/-- A string ends with its line, for `awaitsFrom` as for the lexer. At the end of the text it makes
no difference either. -/
theorem awaitsFrom_endOfLine {rest : List Char} (h : ∀ c, rest.head? = some c → c = '\n')
    (opened : List Char) : awaitsFrom opened true rest = awaitsFrom opened false rest := by
  cases rest with
  | nil => rfl
  | cons c cs =>
      have hbreak : c = '\n' := h c rfl
      subst hbreak
      rfl

/-! ### One token -/

/-- The character that opens a delimiter. -/
def opening : Delimiter → Char
  | .paren => '('
  | .bracket => '['
  | .brace => '{'

/-- The character that closes a delimiter. -/
def closing : Delimiter → Char
  | .paren => ')'
  | .bracket => ']'
  | .brace => '}'

/-- An opening character opens its delimiter. Characters and delimiters correspond by `opening`,
under which the two stacks are compared. -/
theorem awaitsFrom_opening (opened : List Delimiter) (d : Delimiter) (rest : List Char) :
    awaitsFrom (opened.map opening) false (opening d :: rest) =
      awaitsFrom ((d :: opened).map opening) false rest := by
  cases d <;> rfl

/-- A closing character closes its delimiter where that is the innermost, and otherwise nothing is
awaited, however `rest` goes on. -/
theorem awaitsFrom_closing (opened : List Delimiter) (d : Delimiter) (rest : List Char) :
    awaitsFrom (opened.map opening) false (closing d :: rest) =
      (if opened.head? = some d then some opened.tail else none).any fun left =>
        awaitsFrom (left.map opening) false rest := by
  cases opened with
  | nil => cases d <;> rfl
  | cons innermost others => cases innermost <;> cases d <;> rfl

/-- The characters of a word have no effect, as none of them is in `marks`: the class
`continuesWord` holds no bracket and no quote. -/
theorem not_mem_marks_of_word {run : List Char} (h : ∀ c ∈ run, continuesWord c = true) :
    ∀ c ∈ run, c ∉ marks :=
  fun c hc => not_mem_marks (by decide) (h c hc)

/-- A symbol has the effect of its characters, which `openBehind` states for the bracket it is, or
none; operators of two characters hold no mark. -/
theorem awaitsFrom_symbol (opened : List Delimiter) (mark : Symbol) (rest : List Char) :
    awaitsFrom (opened.map opening) false (mark.text.toList ++ rest) =
      (openBehind opened (.symbol mark)).any fun left =>
        awaitsFrom (left.map opening) false rest := by
  cases mark
  case leftParen => exact awaitsFrom_opening opened .paren rest
  case leftBracket => exact awaitsFrom_opening opened .bracket rest
  case leftBrace => exact awaitsFrom_opening opened .brace rest
  case rightParen => exact awaitsFrom_closing opened .paren rest
  case rightBracket => exact awaitsFrom_closing opened .bracket rest
  case rightBrace => exact awaitsFrom_closing opened .brace rest
  all_goals exact awaitsFrom_run (by simp [Symbol.text, marks]) _ rest

/-- The characters of a token have the effect of the token, wherever it `StandsBefore` a text. A
string goes in and out, and an illegal lexeme is a stray character or an open string. -/
theorem awaitsFrom_source {t : Lexeme} {rest : List Char} (h : t.StandsBefore rest)
    (opened : List Delimiter) :
    awaitsFrom (opened.map opening) false (t.source.toList ++ rest) =
      (openBehind opened t).any fun left => awaitsFrom (left.map opening) false rest := by
  obtain ⟨hgenuine, -⟩ | ⟨text, rfl, hillegal⟩ := h
  · cases t with
    | illegal text => cases hgenuine
    | identifier name => exact awaitsFrom_run (not_mem_marks_of_word hgenuine.word) _ rest
    | integer digits =>
        have hdigits : ∀ c ∈ digits.toList, c ∉ marks :=
          fun c hc => not_mem_marks (by decide) (hgenuine.2 c hc)
        exact awaitsFrom_run hdigits _ rest
    | string content =>
        -- The second quote takes back what the first one did.
        have htext : (Lexeme.string content).source.toList ++ rest =
            '"' :: (content.toList ++ '"' :: rest) := by simp [Lexeme.source]
        rw [htext]
        show awaitsFrom _ true (content.toList ++ '"' :: rest) = _
        rw [awaitsFrom_content hgenuine]
        rfl
    | keyword word =>
        have hword : word.text.toList.all continuesWord = true := by cases word <;> decide
        exact awaitsFrom_run (not_mem_marks_of_word (List.all_eq_true.1 hword)) _ rest
    | symbol mark => exact awaitsFrom_symbol opened mark rest
  · show awaitsFrom _ false (text.toList ++ rest) = awaitsFrom _ false rest
    generalize text.toList = cs at hillegal
    cases hillegal with
    | @stray c _ hblank hstray =>
        -- Every mark begins a genuine lexeme, so a stray character is none.
        have hmarks : ∀ d ∈ marks, (Symbol.ofChar? d).isSome ∨ d = '"' := by
          simp [marks, Symbol.ofChar?]
        have hc : c ∉ marks := by
          intro hmem
          refine hstray (Lexeme.startsGenuine_iff.2 ?_)
          rcases hmarks c hmem with hmark | hquote
          · exact .inl (Option.isSome_iff_exists.1 hmark)
          · exact .inr (.inl hquote)
        exact awaitsFrom_run (by simpa using hc) _ rest
    | openString hcontent hend =>
        show awaitsFrom _ true (_ ++ rest) = _
        rw [awaitsFrom_content hcontent, awaitsFrom_endOfLine hend]

/-! ### A text -/

/-- Blanks have no effect outside of strings, line feeds among them: they are no `marks`, so
`awaitsFrom_run` applies. -/
theorem awaitsFrom_blanks {blanks : List Char} (h : ∀ c ∈ blanks, isBlank c = true)
    (opened rest : List Char) :
    awaitsFrom opened false (blanks ++ rest) = awaitsFrom opened false rest :=
  awaitsFrom_run (fun c hc => not_mem_marks (by decide) (h c hc)) opened rest

/-- A text awaits more exactly if its tokens leave a delimiter open. Induction on `Segmented`, by
`awaitsFrom_blanks` and `awaitsFrom_source` for each token. -/
theorem awaitsFrom_of_segmented {before text : List Char} {ts : List Token} {endLine : Nat}
    (h : Segmented before text ts endLine) (opened : List Delimiter) :
    awaitsFrom (opened.map opening) false text =
      (openFrom opened (ts.map Token.lexeme)).any fun left => !left.isEmpty := by
  induction h generalizing opened with
  | @finish before blanks hblanks =>
      have hend := awaitsFrom_blanks hblanks (opened.map opening) []
      rw [List.append_nil] at hend
      rw [hend]
      cases opened <;> rfl
  | token hblanks hstands _ ih =>
      rw [List.append_assoc, awaitsFrom_blanks hblanks, awaitsFrom_source hstands, List.map_cons,
        openFrom_cons, Option.any_bind]
      exact congrArg (Option.any · _) (funext ih)

/-- White space awaits nothing, so that looking for it first has no effect: `awaitsMore` is
`awaitsFrom` with nothing open. -/
theorem awaitsMore_eq (entry : String) : awaitsMore entry = awaitsFrom [] false entry.toList := by
  unfold awaitsMore
  split
  · rename_i hspace
    have hrun : ∀ c ∈ entry.toList, c ∉ marks :=
      fun c hc => not_mem_marks (by decide) (List.all_eq_true.1 hspace c hc)
    have hend := awaitsFrom_run hrun [] []
    rw [List.append_nil] at hend
    exact hend.symm
  · rfl

/-- An entry awaits more exactly if its tokens, read in order, close nothing but the innermost
delimiter that is open and leave one open at the end. So it never does if it is a program.

The equivalence is `awaitsFrom_of_segmented` for the cutting of the entry into its tokens; a program
leaves nothing open by `nested_closes`. -/
theorem awaitsMore_iff_openFrom (entry : String) :
    (awaitsMore entry = true ↔
      ∃ left, left ≠ [] ∧ openFrom [] (tokenize entry).lexemes = some left) ∧
    ∀ p, Program.parse entry = .ok p → awaitsMore entry = false := by
  have hread : awaitsMore entry =
      (openFrom [] (tokenize entry).lexemes).any fun left => !left.isEmpty := by
    rw [awaitsMore_eq]
    exact awaitsFrom_of_segmented (segmented_tokens [] entry.toList) []
  constructor
  · rw [hread, Option.any_eq_true]
    simp [and_comm]
  · intro p hparse
    have hwritten := Program.written_of_parse hparse
    rw [hread, hwritten.nested nested_closes 0 []]
    rfl

/-- A brace and a parenthesis that do not count stand in strings, one of which ends with its line; a
bracket and a parenthesis in front of them stay open. Closed in order, they make a program. -/
theorem awaitsMore_of_open_string :
    let entry := "f(\"\x7d\r\n[1, \")\""
    let whole := "f(\"\x7d\",\r\n[1, \")\"])"
    openFrom [] (tokenize entry).lexemes = some [.bracket, .paren] ∧ awaitsMore entry = true ∧
      ∃ p, Program.parse whole = .ok p ∧ awaitsMore whole = false := by
  intro entry whole
  have hleft : openFrom [] (tokenize entry).lexemes = some [.bracket, .paren] := by
    subst entry
    decide +kernel
  have hdiagnostics : (Survey.ofText whole).diagnostics.isEmpty = true := by
    subst whole
    decide +kernel
  have hparse : Program.parse whole = .ok (Survey.ofText whole).program := if_pos hdiagnostics
  obtain ⟨hawaits, -⟩ := awaitsMore_iff_openFrom entry
  obtain ⟨-, hprogram⟩ := awaitsMore_iff_openFrom whole
  exact ⟨hleft, hawaits.2 ⟨_, List.cons_ne_nil _ _, hleft⟩, _, hparse, hprogram _ hparse⟩

end Console

end Monkey
