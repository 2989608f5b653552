import Monkey.Proofs.Text.Lines

/-!
# `Monkey.Proofs.Text.Segmentation`: the tokens of a text make up the text

A text is blanks, a token, blanks, a token, and so on, and blanks at the
end. Where the tokens end is settled by the text itself, because a lexeme
is read as far as it goes on. So there is one way to cut a text into
tokens, and that is how a lexer reads it, whatever way it is asked.

* `Segmented` cuts a text into tokens, with no mention of reading.
* `Segmented.tokens_eq` and `segmented_tokens` say that reading does the
  same.
* `Lexer.answers` is what a lexer gives when it is asked time and again,
  in either of two ways; `Lexer.answers_eq` reads the answers off the
  tokens.
-/

set_option autoImplicit false

namespace Monkey

/-! ### Cutting a text into tokens -/

/-- The line that is reached behind a text. -/
def lineBehind (text : List Char) : Nat := 1 + text.count '\n'

/-- `Segmented before text tokens endLine`: a text which stands behind `before` is made up of the
tokens, with blanks in front of each and behind the last. A token may be read in front of what
follows it, and is on the line that is reached in front of it. -/
inductive Segmented : List Char → List Char → List Token → Nat → Prop where
  | finish {before blanks : List Char} (h : ∀ c ∈ blanks, isBlank c = true) :
      Segmented before blanks [] (lineBehind (before ++ blanks))
  | token {before blanks rest : List Char} {t : Lexeme} {ts : List Token} {endLine : Nat}
      (h : ∀ c ∈ blanks, isBlank c = true) (ht : t.StandsBefore rest)
      (hrest : Segmented (before ++ blanks ++ t.source.toList) rest ts endLine) :
      Segmented before (blanks ++ t.source.toList ++ rest)
        (⟨t, lineBehind (before ++ blanks)⟩ :: ts) endLine

namespace Lexeme

/-- A lexeme that is read somewhere is not empty and stays on its line: what is read begins with a
character that is no blank, and `count_read` says that no line feed is taken. -/
theorem StandsBefore.source {t : Lexeme} {rest : List Char} (h : t.StandsBefore rest) :
    t.source.toList ≠ [] ∧ '\n' ∉ t.source.toList := by
  obtain ⟨c, cs, hsource, hblank, hread⟩ := read_of_standsBefore h
  have hne : c ≠ '\n' := by
    rintro rfl
    cases hblank
  have hcount := count_read c (cs ++ rest)
  simp only [hread, List.count_append] at hcount
  have hcs : '\n' ∉ cs := List.count_eq_zero.1 (by omega)
  rw [hsource]
  exact ⟨List.cons_ne_nil c cs, List.not_mem_cons_of_ne_of_not_mem hne.symm hcs⟩

/-- No genuine lexeme that stands where a lexeme is read is longer. It is
`Lexeme.length_source_le_read`, with `t` known to be what is read. -/
theorem StandsBefore.longest {t u : Lexeme} {rest more : List Char} (h : t.StandsBefore rest)
    (hu : u.Genuine) (htext : u.source.toList ++ more = t.source.toList ++ rest) :
    u.source.toList.length ≤ t.source.toList.length := by
  obtain ⟨c, cs, hsource, -, hread⟩ := read_of_standsBefore h
  rw [hsource, List.cons_append] at htext
  have hle := length_source_le_read hu htext
  rwa [hread] at hle

end Lexeme

namespace Lexer

/-- Blanks in front are gone past, and the line feeds among them are counted: `tokens_blank_cons`
for a run of blanks. -/
theorem tokens_blanks_append {blanks : List Char} (h : ∀ c ∈ blanks, isBlank c = true)
    (rest : List Char) (line : Nat) :
    tokens ⟨blanks ++ rest, line⟩ = tokens ⟨rest, line + blanks.count '\n'⟩ := by
  induction blanks generalizing line with
  | nil => rfl
  | cons c cs ih =>
      obtain ⟨hc, hcs⟩ := List.forall_mem_cons.1 h
      have hcount : ([c] ++ cs).count '\n' = [c].count '\n' + cs.count '\n' := List.count_append
      rw [List.cons_append, tokens_blank_cons hc, ih hcs, Nat.add_assoc, ← hcount]
      rfl

end Lexer

/-- The line that is reached behind two texts is the one behind the first, and as many more as there
are line feeds in the second. -/
theorem lineBehind_append (before text : List Char) :
    lineBehind (before ++ text) = lineBehind before + text.count '\n' := by
  rw [lineBehind, lineBehind, List.count_append, Nat.add_assoc]

/-- What a text can be cut into is read of it. Induction on `Segmented`: the blanks are gone past,
and the token in front is read by `Lexeme.read_of_standsBefore`. -/
theorem Segmented.tokens_eq {before text : List Char} {ts : List Token} {endLine : Nat}
    (h : Segmented before text ts endLine) :
    Lexer.tokens ⟨text, lineBehind before⟩ = ⟨ts, endLine⟩ := by
  induction h with
  | @finish before blanks h =>
      have hblanks := Lexer.tokens_blanks_append h [] (lineBehind before)
      rw [List.append_nil, Lexer.tokens_nil, ← lineBehind_append] at hblanks
      exact hblanks
  | @token before blanks rest t ts endLine h ht _ ih =>
      obtain ⟨c, cs, hsource, hblank, hread⟩ := Lexeme.read_of_standsBefore ht
      -- The token takes no line feed away, so that the rest is read on its line.
      have hline : lineBehind (before ++ blanks ++ t.source.toList) =
          lineBehind (before ++ blanks) := by
        rw [lineBehind_append, List.count_eq_zero.2 ht.source.2, Nat.add_zero]
      rw [hline] at ih
      rw [List.append_assoc, Lexer.tokens_blanks_append h, ← lineBehind_append, hsource,
        List.cons_append, Lexer.tokens_cons hblank, hread, ih]

/-- What is read of a text can be cut from it, whatever stands before. The recursion is on the
length of the text; `Segmented.tokens_eq` identifies the rest. -/
theorem segmented_tokens (before text : List Char) :
    Segmented before text (Lexer.tokens ⟨text, lineBehind before⟩).tokens
      (Lexer.tokens ⟨text, lineBehind before⟩).endLine := by
  have hblanks : ∀ c ∈ text.takeWhile isBlank, isBlank c = true := mem_of_takeWhile
  have htext := List.takeWhile_append_dropWhile (p := isBlank) (l := text)
  cases hrest : text.dropWhile isBlank with
  | nil =>
      rw [hrest, List.append_nil] at htext
      have hfinish : Segmented before (text.takeWhile isBlank) [] _ := .finish hblanks
      rw [htext] at hfinish
      rw [hfinish.tokens_eq]
      exact hfinish
  | cons c cs =>
      have hhead : (text.dropWhile isBlank).head? = some c := by rw [hrest]; rfl
      have hblank : isBlank c = false := Lexeme.head?_dropWhile hhead
      obtain ⟨hstands, hsource⟩ := Lexeme.standsBefore_read hblank cs
      -- The tokens behind the first one are cut from a shorter text.
      have hshorter : (Lexeme.read c cs).2.length < text.length := by
        have hread := Lexeme.length_read_le c cs
        have hdrop := (List.dropWhile_sublist isBlank (l := text)).length_le
        rw [hrest, List.length_cons] at hdrop
        omega
      have htoken : Segmented before (_ ++ _ ++ _) (_ :: _) _ :=
        .token hblanks hstands (segmented_tokens _ _)
      rw [List.append_assoc, hsource, ← hrest, htext] at htoken
      rw [htoken.tokens_eq]
      exact htoken
termination_by text.length

/-! ### Asking a lexer -/

namespace Lexer

/-- The ways to ask a lexer what comes next: for a token, or for whatever stands there. -/
inductive Request where
  | token
  | found

/-- What a lexer answers. To one who asks for a token, the end of the text is nothing. -/
inductive Answer where
  | token (t : Option Token)
  | found (f : Found)

/-- The answer to a request, and the lexer behind it. -/
def answer (l : Lexer) : Request → Answer × Lexer
  | .token => (.token l.next.1, l.next.2)
  | .found => (.found l.nextFound.1, l.nextFound.2)

/-- The answers to requests in order, each put to the lexer behind the one before. -/
def answers (l : Lexer) : List Request → List Answer
  | [] => []
  | r :: rs => (l.answer r).1 :: (l.answer r).2.answers rs

end Lexer

/-- What the tokens of a text answer to a request when so many have been answered before. Behind
the end of the text it is found again and again. -/
def TokenStream.answer (s : TokenStream) (before : Nat) : Lexer.Request → Lexer.Answer
  | .token => .token s.tokens[before]?
  | .found => .found (s.found[before]?.getD s.finish)

namespace TokenStream

/-- Where no token is left it does not matter how many requests have been answered: the end of the
text is all there is to answer with. -/
theorem answer_nil (endLine before : Nat) (r : Lexer.Request) :
    answer ⟨[], endLine⟩ before r = answer ⟨[], endLine⟩ 0 r := by
  cases r with
  | token => rfl
  | found => cases before <;> rfl

/-- Behind the first token the others answer, so counting requests and dropping tokens come to the
same. -/
theorem answer_cons_succ (t : Token) (ts : List Token) (endLine before : Nat)
    (r : Lexer.Request) :
    answer ⟨t :: ts, endLine⟩ (before + 1) r = answer ⟨ts, endLine⟩ before r := by
  cases r <;> rfl

end TokenStream

namespace Lexer

/-- At the end of the text the end of the text is all that is left, and a lexer that has found it
goes on finding it. -/
theorem tokens_after_none {l after : Lexer} (h : l.next = (none, after)) :
    after.tokens = ⟨[], after.line⟩ := by
  unfold next at h
  dsimp only at h
  split at h
  · rename_i hrest
    cases h
    rw [← tokens_nil, ← hrest]
  · cases h

/-- A lexer answers by the tokens that it has left. Induction on the requests, with a case for
whether `next` finds a token; both kinds of request ask for it. -/
theorem answers_eq (l : Lexer) (rs : List Request) :
    l.answers rs = rs.mapIdx fun i r => l.tokens.answer i r := by
  induction rs generalizing l with
  | nil => rfl
  | cons r rs ih =>
      rw [answers, List.mapIdx_cons]
      cases hnext : l.next with
      | mk t after =>
          cases t with
          | none =>
              -- At the end every further request is answered alike, whatever its number.
              have hafter := tokens_after_none hnext
              have hl : l.tokens = ⟨[], after.line⟩ := tokens_of_none hnext
              have hfirst : l.answer r = (TokenStream.answer ⟨[], after.line⟩ 0 r, after) := by
                cases r <;> simp [answer, nextFound, hnext, TokenStream.answer, TokenStream.found,
                  TokenStream.finish]
              rw [hfirst, ih, hl, hafter]
              simp only [TokenStream.answer_nil]
          | some t =>
              have hfirst : l.answer r = (l.tokens.answer 0 r, after) := by
                rw [tokens_of_some hnext]
                cases r <;> simp [answer, nextFound, hnext, TokenStream.answer, TokenStream.found]
              rw [hfirst, ih, tokens_of_some hnext]
              simp only [TokenStream.answer_cons_succ]

end Lexer

/-! ### Texts -/

/-- What is found in a text tells its tokens and where it ends. The end is the last entry and the
only one without a lexeme, so a list of findings determines the stream. -/
theorem TokenStream.found_eq_iff {s : TokenStream} {ts : List Token} {endLine : Nat} :
    s.found = ts.map Token.found ++ [⟨none, endLine⟩] ↔ s = ⟨ts, endLine⟩ := by
  constructor
  · intro h
    obtain ⟨htokens, hfinish⟩ := List.append_inj' h rfl
    have hinj : Function.Injective Token.found := by
      rintro ⟨t, line⟩ ⟨t', line'⟩ heq
      cases heq
      rfl
    have htokens' : s.tokens = ts := (List.map_inj_right hinj).1 htokens
    cases hfinish
    rw [← htokens']
  · rintro rfl
    rfl

/-- The tokens of a text are what it is made up of.

A text can be cut into tokens in one way: what stands between them is blank, every token is a lexeme
that may be read in front of what follows it, and its line is told by the line feeds in front of it.
These tokens, and then the end of the text, are what is found in it. No token is empty or goes on
behind a line feed, and no genuine lexeme that stands at the place of one is longer. A lexer that is
asked for tokens, in both ways by turns, gives one after the other, and at the end the end for ever.

There is a cutting by `segmented_tokens`, and only one by `Segmented.tokens_eq`. The other parts are
`StandsBefore.source`, `StandsBefore.longest` and `answers_eq`. -/
theorem tokenize_segmented (text : String) :
    (∃ ts endLine, Segmented [] text.toList ts endLine) ∧
    (∀ ts endLine, Segmented [] text.toList ts endLine ↔
      (tokenize text).found = ts.map Token.found ++ [⟨none, endLine⟩]) ∧
    (∀ (t : Lexeme) (rest : List Char), t.StandsBefore rest →
      t.source.toList ≠ [] ∧ '\n' ∉ t.source.toList ∧
      ∀ (u : Lexeme) (more : List Char), u.Genuine →
        u.source.toList ++ more = t.source.toList ++ rest →
        u.source.toList.length ≤ t.source.toList.length) ∧
    ∀ rs : List Lexer.Request, (Lexer.ofText text).answers rs =
      rs.mapIdx fun i r => (tokenize text).answer i r := by
  have hcut : Segmented [] text.toList (tokenize text).tokens (tokenize text).endLine :=
    segmented_tokens [] text.toList
  refine ⟨⟨_, _, hcut⟩, fun ts endLine => ?_, fun t rest ht => ?_, (Lexer.ofText text).answers_eq⟩
  · rw [TokenStream.found_eq_iff]
    constructor
    · intro h
      exact h.tokens_eq
    · intro h
      rwa [h] at hcut
  · exact ⟨ht.source.1, ht.source.2, fun u more hu htext => ht.longest hu htext⟩

/-- A word, a mark that no equals sign follows, a line feed after a carriage return, a number that a
word follows at once, and a string that its line does not close. Asked once for a token, twice for
what stands there and once for a token again, a lexer gives the first four of these. -/
theorem tokenize_segmented_of_open_string :
    let text := "iffy !\r\n12x \"y"
    let ts : List Token := [⟨.identifier "iffy", 1⟩, ⟨.symbol .bang, 1⟩, ⟨.integer "12", 2⟩,
      ⟨.identifier "x", 2⟩, ⟨.illegal "\"y", 2⟩]
    Segmented [] text.toList ts 2 ∧
      (∀ (u : Lexeme) (more : List Char), u.Genuine →
        u.source.toList ++ more = "12x \"y".toList → u.source.toList.length ≤ 2) ∧
      (Lexer.ofText text).answers [.token, .found, .found, .token, .token, .token, .found] =
        [.token ts[0]?, .found ⟨some (.symbol .bang), 1⟩, .found ⟨some (.integer "12"), 2⟩,
          .token ts[3]?, .token ts[4]?, .token none, .found ⟨none, 2⟩] := by
  intro text ts
  obtain ⟨-, hcut, hlongest, hanswers⟩ := tokenize_segmented text
  -- The tokens are computed; the cut and the answers follow from them by the theorem.
  have htokens : tokenize text = ⟨ts, 2⟩ := by
    subst text ts
    decide +kernel
  have hstands : (Lexeme.integer "12").StandsBefore "x \"y".toList := by
    refine .inl ⟨by simp [Lexeme.Genuine], fun c hc => ?_⟩
    cases hc
    decide
  refine ⟨(hcut ts 2).2 (TokenStream.found_eq_iff.2 htokens), ?_, ?_⟩
  · exact fun u more hu htext => (hlongest _ _ hstands).2.2 u more hu htext
  · rw [hanswers, htokens]
    rfl

end Monkey
