import Monkey.Console.Highlight
import Monkey.Proofs.Text.Segmentation

/-!
# `Monkey.Proofs.Console.Coloring`: the colors of an entry are those of its tokens

The segments of an entry are made without positions: each token's text is
looked for in what is left of the entry, and the first place where it
occurs is taken for the token. That is right because what is left starts
with the blanks in front of the token, and no token starts with a blank,
so that its text cannot occur any earlier. Every search therefore ends
where the lexer stood behind that token, and the next one starts there.

* `cutAt?_first`: a search finds the first place.
* `cutAt?_blanks_append`: behind blanks that is where the token stands.
* `Colored` says which segments the tokens of a text have, with every
  search in its place; `colored_of_segmented` goes through a text that is
  cut into its tokens.
* `highlight_colored` is the statement for entries.
-/

set_option autoImplicit false

namespace Monkey.Console

/-! ### Searching -/

/-- What `cutAt?` finds is an occurrence of the word, and none is earlier. Induction on the
text: where the word is no prefix, an occurrence has something in front of it. -/
theorem cutAt?_first {word text before after : List Char}
    (h : cutAt? word text = some (before, after)) :
    text = before ++ word ++ after ∧
      ∀ b a, text = b ++ word ++ a → before.length ≤ b.length := by
  induction text generalizing before with
  | nil =>
      rw [cutAt?] at h
      split at h
      · rename_i hempty
        cases h
        rw [List.isEmpty_iff.1 hempty]
        exact ⟨rfl, fun b _ _ => Nat.zero_le b.length⟩
      · cases h
  | cons c rest ih =>
      rw [cutAt?] at h
      split at h
      · rename_i hprefix
        obtain ⟨behind, hbehind⟩ := List.isPrefixOf_iff_prefix.1 hprefix
        cases h
        refine ⟨?_, fun b _ _ => Nat.zero_le b.length⟩
        rw [← hbehind, List.drop_left, List.nil_append]
      · rename_i hprefix
        obtain ⟨⟨before', after'⟩, hcut, heq⟩ := Option.map_eq_some_iff.1 h
        cases heq
        obtain ⟨htext, hfirst⟩ := ih hcut
        refine ⟨by rw [htext]; rfl, fun b a hb => ?_⟩
        -- The word does not occur right here, so that an occurrence has something in front of it.
        cases b with
        | nil => exact absurd (List.isPrefixOf_iff_prefix.2 ⟨a, hb.symm⟩) hprefix
        | cons d ds =>
            rw [List.cons_append, List.cons_append, List.cons.injEq] at hb
            exact Nat.succ_le_succ (hfirst ds a hb.2)

/-- A word that starts with no blank is found behind the blanks in front of it. None of the blanks
can begin the word, so each is gone past. -/
theorem cutAt?_blanks_append {blanks word : List Char} (h : ∀ c ∈ blanks, isBlank c = true)
    (hword : ∃ c cs, word = c :: cs ∧ isBlank c = false) (rest : List Char) :
    cutAt? word (blanks ++ word ++ rest) = some (blanks, rest) := by
  obtain ⟨c, cs, rfl, hc⟩ := hword
  induction blanks with
  | nil =>
      have hprefix : (c :: cs).isPrefixOf (c :: cs ++ rest) = true :=
        List.isPrefixOf_iff_prefix.2 (List.prefix_append _ rest)
      rw [List.nil_append, List.cons_append, cutAt?, ← List.cons_append, if_pos hprefix,
        List.drop_left]
  | cons b bs ih =>
      obtain ⟨hb, hbs⟩ := List.forall_mem_cons.1 h
      -- The word starts with no blank, so it cannot start at `b`.
      have hne : c ≠ b := by
        rintro rfl
        rw [hb] at hc
        cases hc
      have hprefix : (c :: cs).isPrefixOf (b :: (bs ++ c :: cs ++ rest)) = false := by
        rw [List.isPrefixOf, beq_eq_false_iff_ne.2 hne, Bool.false_and]
      rw [List.cons_append, List.cons_append, cutAt?, hprefix, ih hbs]
      rfl

/-! ### Segments of tokens -/

/-- `Colored text ts segments`: the text is made up of the lexemes, with blanks in front of each and
behind the last, and the segments are these in order: blanks, if there are any, are plain, and every
lexeme is a segment of its own in the color of its class. The text of a lexeme occurs where the
lexeme stands and nowhere in front of it, and there it is found. -/
inductive Colored : List Char → List Lexeme → List Segment → Prop where
  | finish {blanks : List Char} (h : ∀ c ∈ blanks, isBlank c = true) :
      Colored blanks [] (gap blanks)
  | lexeme {blanks rest : List Char} {t : Lexeme} {ts : List Lexeme} {behind : List Segment}
      (h : ∀ c ∈ blanks, isBlank c = true) (ht : t.StandsBefore rest)
      (hfirst : ∀ before after,
        blanks ++ t.source.toList ++ rest = before ++ t.source.toList ++ after →
          blanks.length ≤ before.length)
      (hfound : cutAt? t.source.toList (blanks ++ t.source.toList ++ rest) = some (blanks, rest))
      (hrest : Colored rest ts behind) :
      Colored (blanks ++ t.source.toList ++ rest) (t :: ts)
        (gap blanks ++ ⟨.ofLexeme t, t.source.toList⟩ :: behind)

/-- The segments of a text are those of the tokens that it can be cut into. Induction on
`Segmented`, with `cutAt?_blanks_append` for the search and `cutAt?_first` for its being the first.
-/
theorem colored_of_segmented {before text : List Char} {ts : List Token} {endLine : Nat}
    (h : Segmented before text ts endLine) :
    Colored text (ts.map Token.lexeme) (segments (ts.map Token.lexeme) text) := by
  induction h with
  | finish hblanks => exact .finish hblanks
  | @token before blanks rest t ts endLine hblanks hstands _ ih =>
      obtain ⟨c, cs, hsource, hblank, -⟩ := Lexeme.read_of_standsBefore hstands
      have hfound := cutAt?_blanks_append hblanks ⟨c, cs, hsource, hblank⟩ rest
      rw [List.map_cons, segments, hfound]
      exact .lexeme hblanks hstands (cutAt?_first hfound).2 hfound ih

/-- The text of a gap is the text it was made for, also when there is none and `gap` makes no
segment. -/
theorem flatMap_text_gap (text : List Char) : (gap text).flatMap Segment.text = text := by
  cases text with
  | nil => rfl
  | cons c cs => exact List.flatMap_singleton Segment.text ⟨.plain, c :: cs⟩

/-- Together the segments are the text: blanks by `flatMap_text_gap`, and each lexeme as the
characters it is written with. -/
theorem Colored.flatMap_text {text : List Char} {ts : List Lexeme} {segments : List Segment}
    (h : Colored text ts segments) : segments.flatMap Segment.text = text := by
  induction h with
  | finish => exact flatMap_text_gap _
  | lexeme _ _ _ _ _ ih =>
      rw [List.flatMap_append, List.flatMap_cons, flatMap_text_gap, ih, List.append_assoc]

/-- An entry has the colors of its tokens, and nothing of it is lost.

Whatever the entry holds, its segments are its tokens in order, each with the characters that it is
written with and in the color of its class, with the blanks between them and behind the last as
plain segments. Each search for a token finds it, where it stands.

The cutting is the one that `segmented_tokens` gives for every text, so nothing is asked of the
entry. -/
theorem highlight_colored (entry : String) :
    Colored entry.toList (tokenize entry).lexemes (highlight entry) ∧
      (highlight entry).flatMap Segment.text = entry.toList := by
  have hcolored : Colored entry.toList (tokenize entry).lexemes (highlight entry) :=
    colored_of_segmented (segmented_tokens [] entry.toList)
  exact ⟨hcolored, hcolored.flatMap_text⟩

/-- A word that is part of the one before it, and a string that its line does not close. -/
example : highlight "lets let\n \"let" =
    [⟨.white, "lets".toList⟩, ⟨.plain, [' ']⟩, ⟨.lightBlue, "let".toList⟩,
      ⟨.plain, ['\n', ' ']⟩, ⟨.red, "\"let".toList⟩] := by
  decide +kernel

end Monkey.Console
