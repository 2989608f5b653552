import Monkey.Proofs.Syntax.Shift
import Monkey.Proofs.Text.Segmentation

/-!
# `Monkey.Proofs.Syntax.Layout`: the layout of a text does not matter

How a text is cut into lines, and what blanks stand between its tokens,
has no influence on what it says.

* `scan_oneToALine`: put every token of a text on a line of its own, as it
  is written. The same tokens are read back, illegal ones included. A
  token was cut where it stands because of what follows it, but a line
  feed ends every token (`Lexeme.StandsBefore.endOfLine`).
* `Survey.ofText_congr`: texts with the same lexemes give the same
  statements, and the same diagnostics apart from lines. With every line
  forgotten (`Survey.ofCursor_reline`) they start at the same place.
* `Survey.ofText_lineFeeds`: line feeds in front move everything down.

`Survey.layout_irrelevant` is all of it.
-/

set_option autoImplicit false

namespace Monkey

/-! ### One token to a line -/

/-- A text of lexemes as they are written, each on a line of its own. -/
def oneToALine (ts : List Lexeme) : String := "\n".intercalate (ts.map Lexeme.source)

/-- A lexeme that may be read somewhere is read at the end of a line. Whatever it may stand before,
a line feed continues no lexeme and closes even a string. -/
theorem scan_source_endOfLine {t : Lexeme} {rest more : List Char} (h : t.StandsBefore rest)
    (hmore : ∀ c, more.head? = some c → c = '\n') :
    scan (t.source.toList ++ more) = t :: scan more := by
  obtain ⟨c, cs, hsource, hblank, hread⟩ := Lexeme.read_of_standsBefore (h.endOfLine hmore)
  rw [hsource, List.cons_append, scan_cons hblank, hread]

/-- Lexemes that may be read somewhere are read one to a line. The hypothesis is what `StandsBefore`
says of every lexeme of a scanned text; `more` is the rest behind the last line. -/
theorem scan_oneToALine {ts : List Lexeme} (h : ∀ t ∈ ts, ∃ rest, t.StandsBefore rest)
    {more : List Char} (hmore : ∀ c, more.head? = some c → c = '\n') :
    scan ((oneToALine ts).toList ++ more) = ts ++ scan more := by
  match ts with
  | [] => rfl
  | [t] =>
      obtain ⟨rest, ht⟩ := h t List.mem_cons_self
      have htext : oneToALine [t] = t.source := String.intercalate_singleton
      rw [htext]
      exact scan_source_endOfLine ht hmore
  | t :: u :: ts =>
      obtain ⟨⟨rest, ht⟩, hts⟩ := List.forall_mem_cons.1 h
      have htext : (oneToALine (t :: u :: ts)).toList ++ more =
          t.source.toList ++ '\n' :: ((oneToALine (u :: ts)).toList ++ more) := by
        simp [oneToALine, String.intercalate_cons_cons, -String.toList_intercalate]
      have hbreak : ∀ c, ('\n' :: ((oneToALine (u :: ts)).toList ++ more)).head? = some c →
          c = '\n' := by
        intro c hc
        cases hc
        rfl
      -- The first lexeme ends its line, the line feed is a blank, and the other lines go by
      -- induction.
      rw [htext, scan_source_endOfLine ht hbreak, scan_blank_cons rfl, scan_oneToALine hts hmore]
      rfl

/-- The tokens of a text, one to a line, are its tokens apart from lines. The last line may have a
line feed, which adds nothing. -/
theorem lexemes_oneToALine (text : String) {ending : String} (h : ending = "" ∨ ending = "\n") :
    (tokenize (oneToALine (tokenize text).lexemes ++ ending)).lexemes =
      (tokenize text).lexemes := by
  have hstands : ∀ t ∈ (tokenize text).lexemes, ∃ rest, t.StandsBefore rest := by
    intro t ht
    exact standsBefore_of_mem_scan ht
  have hending : (∀ c, ending.toList.head? = some c → c = '\n') ∧ scan ending.toList = [] := by
    rcases h with rfl | rfl
    · exact ⟨by simp, scan_nil⟩
    · exact ⟨by simp, scan_of_blanks rfl⟩
  rw [lexemes_tokenize, String.toList_append, scan_oneToALine hstands hending.1, hending.2,
    List.append_nil]

/-! ### Texts with the same lexemes -/

/-- What a diagnostic says apart from the line: what would have been accepted, and the lexeme that
was found. -/
def Diagnostic.apartFromLine (d : Diagnostic) : Expectation × Option Lexeme :=
  (d.expected, d.found.lexeme)

/-- Where lines are forgotten, texts with the same lexemes start at the same place: `reline` with a
constant is how "apart from lines" is said of a `Cursor`. -/
theorem Cursor.reline_start {s t : TokenStream} (h : s.lexemes = t.lexemes) :
    (start s).reline (fun _ => 0) = (start t).reline (fun _ => 0) := by
  have hforget (u : TokenStream) :
      u.tokens.map (Token.reline fun _ => 0) = u.lexemes.map fun lexeme => ⟨lexeme, 0⟩ := by
    rw [TokenStream.lexemes, List.map_map]
    rfl
  have hcurrent (u : TokenStream) : (foundIn u.endLine u.tokens).lexeme = u.lexemes.head? :=
    (start u).current_eq_head?
  show Cursor.mk _ _ _ = Cursor.mk _ _ _
  rw [start, start, hcurrent, hcurrent, hforget, hforget, h]

namespace Survey

/-- Texts with the same lexemes give the same program, and the same diagnostics apart from lines.
Both surveys are the survey of one place with its lines forgotten, by `ofCursor_reline`. -/
theorem ofText_congr {a b : String} (h : (tokenize a).lexemes = (tokenize b).lexemes) :
    (ofText a).program = (ofText b).program ∧
      (ofText a).diagnostics.map Diagnostic.apartFromLine =
        (ofText b).diagnostics.map Diagnostic.apartFromLine := by
  obtain ⟨hstatements, hdiagnostics⟩ := ofCursor_reline (fun _ => 0) (Cursor.start (tokenize a))
  obtain ⟨hstatements', hdiagnostics'⟩ := ofCursor_reline (fun _ => 0) (Cursor.start (tokenize b))
  rw [Cursor.reline_start h] at hstatements hdiagnostics
  have hforgotten : (ofText a).diagnostics.map (Diagnostic.reline fun _ => 0) =
      (ofText b).diagnostics.map (Diagnostic.reline fun _ => 0) :=
    hdiagnostics.symm.trans hdiagnostics'
  -- A line that is forgotten takes nothing else of the diagnostic with it.
  have hapart (ds : List Diagnostic) : ds.map Diagnostic.apartFromLine =
      (ds.map (Diagnostic.reline fun _ => 0)).map Diagnostic.apartFromLine := by
    rw [List.map_map]
    rfl
  constructor
  · exact congrArg Program.mk (hstatements.symm.trans hstatements')
  · rw [hapart, hforgotten, ← hapart]

/-! ### Line feeds in front -/

/-- Line feeds in front of a text move its tokens down, by as many lines as there are of them, and
add no token. -/
theorem tokenize_lineFeeds (k : Nat) (text : String) :
    tokenize (String.ofList (List.replicate k '\n') ++ text) = (tokenize text).shift k := by
  have hchars : (String.ofList (List.replicate k '\n') ++ text).toList =
      List.replicate k '\n' ++ text.toList := by simp
  have hblank : ∀ c ∈ List.replicate k '\n', isBlank c = true := by
    intro c hc
    rw [List.eq_of_mem_replicate hc]
    rfl
  show Lexer.tokens ⟨_, 1⟩ = (Lexer.tokens ⟨text.toList, 1⟩).shift k
  rw [hchars, Lexer.tokens_blanks_append hblank, List.count_replicate_self, Lexer.tokens_shift]

/-- Line feeds in front of a text move its diagnostics down and leave its program as it is:
`tokenize_lineFeeds` for the tokens and `ofCursor_reline` for what is read from them. -/
theorem ofText_lineFeeds (k : Nat) (text : String) :
    (ofText (String.ofList (List.replicate k '\n') ++ text)).program = (ofText text).program ∧
      (ofText (String.ofList (List.replicate k '\n') ++ text)).diagnostics =
        (ofText text).diagnostics.map (Diagnostic.shift k) := by
  obtain ⟨hstatements, hdiagnostics⟩ := ofCursor_shift k (Cursor.start (tokenize text))
  rw [Cursor.shift_start, ← tokenize_lineFeeds] at hstatements hdiagnostics
  exact ⟨congrArg Program.mk hstatements, hdiagnostics⟩

/-- The layout of a text does not matter. Its tokens put on a line each are read back, whatever they
are; texts that have the same tokens apart from lines give the same program and as many diagnostics,
which expect and find the same; and line feeds in front raise the line of every token and of every
diagnostic by their number, and change nothing else. The parts are `lexemes_oneToALine`,
`ofText_congr` and `ofText_lineFeeds`. -/
theorem layout_irrelevant :
    (∀ text ending : String, ending = "" ∨ ending = "\n" →
      (tokenize (oneToALine (tokenize text).lexemes ++ ending)).lexemes =
        (tokenize text).lexemes) ∧
    (∀ a b : String, (tokenize a).lexemes = (tokenize b).lexemes →
      (ofText a).program = (ofText b).program ∧
        (ofText a).diagnostics.map Diagnostic.apartFromLine =
          (ofText b).diagnostics.map Diagnostic.apartFromLine) ∧
    ∀ (k : Nat) (text : String),
      let moved := String.ofList (List.replicate k '\n') ++ text
      tokenize moved = (tokenize text).shift k ∧
        (ofText moved).program = (ofText text).program ∧
        (ofText moved).diagnostics = (ofText text).diagnostics.map (Diagnostic.shift k) := by
  refine ⟨fun text ending h => lexemes_oneToALine text h, fun a b h => ofText_congr h, ?_⟩
  intro k text
  exact ⟨tokenize_lineFeeds k text, ofText_lineFeeds k text⟩

/-- A text with equals signs in a row, a stray character next to a string, and a string that its
line does not close, with another layout of it. All three parts of `layout_irrelevant` apply to it.
-/
theorem layout_irrelevant_of_open_string :
    let a := "let x===1!= =\"a b\"@\"open )\n\x7d"
    let b := "let\tx ==\r\n\n=1 !=\n= \"a b\" @ \"open )\n\n\n\x7d"
    (tokenize (oneToALine (tokenize a).lexemes ++ "\n")).lexemes = (tokenize a).lexemes ∧
      (tokenize a).lexemes = (tokenize b).lexemes ∧
      (ofText a).diagnostics.map Diagnostic.apartFromLine =
        (ofText b).diagnostics.map Diagnostic.apartFromLine ∧
      tokenize (String.ofList (List.replicate 3 '\n') ++ a) = (tokenize a).shift 3 := by
  intro a b
  have h : (tokenize a).lexemes = (tokenize b).lexemes := by
    subst a b
    decide +kernel
  obtain ⟨hlines, hlexemes, hmoved⟩ := layout_irrelevant
  exact ⟨hlines a "\n" (.inr rfl), h, (hlexemes a b h).2, (hmoved 3 a).1⟩

end Survey

end Monkey
