import Predictive.Proofs.Joining

/-!
# Written tokens are read again

Spellings that are written one after the other, with blanks between any two of them, are read as themselves
(`readsAs_write`). A spelling is a piece where the text ends behind it (`IsSpelling.pieceAt_eq`), and a blank
is as good as the end of the text for the piece in front of it. So nothing has to be known about what the
neighbours are: an operator may be half of another one, and a word may go on in characters that begin
numbers or operators.

Nothing but spellings is ever read. So the tokens of any text can be written again, with single spaces, and
are read as what they were.
-/

namespace Predictive.Postfix

/-! ### Writing -/

/-- A token to write, with what is left free in front of it. -/
structure Entry where
  kind : Kind
  lexeme : String
  gap : String

/-- The kind and the text of the token. -/
def Entry.text (e : Entry) : Kind × String := (e.kind, e.lexeme)

/-- The entries one after the other, and `back` behind the last of them. -/
def write (entries : List Entry) (back : String) : String :=
  match entries with
  | [] => back
  | e :: entries => e.gap ++ e.lexeme ++ write entries back

/-- All characters of the text are blank. -/
def IsGap (s : String) : Prop := ∀ c ∈ s.toList, Text.isBlank c = true

/-- The entries are spellings of their kinds with gaps in front, and any two are kept apart. -/
structure IsSpaced (separators : List Char) (entries : List Entry) : Prop where
  isSpelling : ∀ e ∈ entries, IsSpelling separators e.kind e.lexeme.toList
  isGap : ∀ e ∈ entries, IsGap e.gap
  apart : ∀ e ∈ entries.tail, e.gap ≠ ""

/-- The text is read as tokens of these kinds and lexemes, with the end marker behind them. -/
def ReadsAs (separators : List Char) (text : String) (pairs : List (Kind × String)) : Prop :=
  ∃ ts, (lexer separators).tokenize text = .ok (ts ++ [.atEnd (Point.start.advance text.toList)]) ∧
    texts ts = pairs

variable {separators w s : List Char} {k : Kind} {p : Point} {ts : List (Token Kind)}
  {entries : List Entry} {e : Entry} {back text : String} {pairs : List (Kind × String)}

theorem readsAs_iff : ReadsAs separators text pairs ↔
    ∃ ts, Scans separators .start text.toList ts ∧ texts ts = pairs := by
  constructor
  · rintro ⟨ts, htokens, hpairs⟩
    exact ⟨ts, scans_of_tokenize_lexer htokens, hpairs⟩
  · rintro ⟨ts, hts, hpairs⟩
    exact ⟨ts, tokenize_lexer_eq_ok_iff.2 ⟨ts, hts, rfl⟩, hpairs⟩

/-! ### Spellings in front of blanks -/

/-- A spelling is a piece in front of a blank and at the end of the text. -/
theorem IsSpelling.pieceAt_append (hseparators : ∀ c ∈ separators, Text.isBlank c = false)
    (h : IsSpelling separators k w) (hs : ∀ c ∈ s.head?, Text.isBlank c = true) :
    pieceAt separators (w ++ s) = some (some k, w.length) := by
  have hw : pieceAt separators (w ++ []) = some (some k, w.length) := by
    rw [List.append_nil]
    exact h.pieceAt_eq
  cases s with
  | nil => exact hw
  | cons c s => exact pieceAt_piece_append_blank hseparators (hs c rfl) hw

/-! ### Reading what is written -/

theorem toList_write_cons : (write (e :: entries) back).toList =
    e.gap.toList ++ (e.lexeme.toList ++ (write entries back).toList) := by
  rw [write, String.toList_append, String.toList_append, List.append_assoc]

theorem IsSpaced.tail (h : IsSpaced separators (e :: entries)) : IsSpaced separators entries :=
  ⟨fun e he => h.isSpelling e (List.mem_cons_of_mem _ he), fun e he => h.isGap e (List.mem_cons_of_mem _ he),
    fun e he => h.apart e (List.mem_of_mem_tail he)⟩

/-- Behind an entry the text ends or goes on with a blank. -/
theorem IsSpaced.head?_write (h : IsSpaced separators (e :: entries)) (hback : IsGap back) :
    ∀ c ∈ (write entries back).toList.head?, Text.isBlank c = true := by
  intro c hc
  cases entries with
  | nil => exact hback c (List.mem_of_mem_head? hc)
  | cons e' entries =>
    have hne : e'.gap.toList ≠ [] := by simpa using h.apart e' (List.mem_cons_self ..)
    rw [toList_write_cons, List.head?_append_of_ne_nil _ hne] at hc
    exact h.tail.isGap e' (List.mem_cons_self ..) c (List.mem_of_mem_head? hc)

theorem Scans.blanks_append (hs : ∀ c ∈ s, Text.isBlank c = true) {r : List Char}
    (h : Scans separators (p.advance s) r ts) : Scans separators p (s ++ r) ts := by
  induction s generalizing p with
  | nil => exact h
  | cons c s ih =>
    obtain ⟨hc, hs⟩ := List.forall_mem_cons.1 hs
    exact .blank hc (ih hs h)

theorem IsSpaced.exists_scans (hseparators : ∀ c ∈ separators, Text.isBlank c = false)
    (h : IsSpaced separators entries) (hback : IsGap back) (p : Point) :
    ∃ ts, Scans separators p (write entries back).toList ts ∧ texts ts = entries.map Entry.text := by
  induction entries generalizing p with
  | nil => exact ⟨[], Scans.nil_iff.2 hback, rfl⟩
  | cons e entries ih =>
    obtain ⟨hspelling, -⟩ := List.forall_mem_cons.1 h.isSpelling
    obtain ⟨hgap, -⟩ := List.forall_mem_cons.1 h.isGap
    obtain ⟨ts, hts, htexts⟩ := ih h.tail ((p.advance e.gap.toList).advance e.lexeme.toList)
    rw [toList_write_cons]
    -- the piece ends where the lexeme does: at the gap of the next entry, or at the end of the text
    have hpiece := hspelling.pieceAt_append hseparators (h.head?_write hback)
    refine ⟨_, .blanks_append hgap (.token hpiece hts), ?_⟩
    rw [texts, List.map_cons, String.ofList_toList]
    exact congrArg (e.text :: ·) htexts

/-! ### Writing what is read -/

/-- The token as an entry. -/
def Entry.behind (gap : String) (pair : Kind × String) : Entry := ⟨pair.1, pair.2, gap⟩

/-- The tokens with one space between any two. -/
def spaced (pairs : List (Kind × String)) : List Entry :=
  match pairs with
  | [] => []
  | pair :: pairs => .behind "" pair :: pairs.map (.behind " ")

theorem map_text_spaced (pairs : List (Kind × String)) : (spaced pairs).map Entry.text = pairs := by
  cases pairs with
  | nil => rfl
  | cons pair pairs => simp [spaced, Entry.text, Entry.behind, Function.comp_def]

theorem append_write_behind (pair : Kind × String) (pairs : List (Kind × String)) :
    pair.2 ++ write (pairs.map (.behind " ")) "" = " ".intercalate ((pair :: pairs).map (·.2)) := by
  induction pairs generalizing pair with
  | nil => simp [write]
  | cons next pairs ih =>
    have hnext : write ((next :: pairs).map (.behind " ")) "" =
        " " ++ next.2 ++ write (pairs.map (.behind " ")) "" := rfl
    rw [hnext, String.append_assoc, ih next, ← String.append_assoc]
    simp only [List.map_cons, String.intercalate_cons_cons]

theorem write_spaced (pairs : List (Kind × String)) :
    write (spaced pairs) "" = " ".intercalate (pairs.map (·.2)) := by
  cases pairs with
  | nil => rfl
  | cons pair pairs =>
    have hfirst : write (spaced (pair :: pairs)) "" =
        "" ++ pair.2 ++ write (pairs.map (.behind " ")) "" := rfl
    rw [hfirst, String.empty_append, append_write_behind]

theorem isSpaced_spaced (h : ∀ pair ∈ pairs, IsSpelling separators pair.1 pair.2.toList) :
    IsSpaced separators (spaced pairs) := by
  cases pairs with
  | nil => exact ⟨by simp [spaced], by simp [spaced], by simp [spaced]⟩
  | cons pair pairs =>
    obtain ⟨hpair, hpairs⟩ := List.forall_mem_cons.1 h
    have hspace : IsGap " " := List.forall_mem_singleton.2 (by decide)
    have hempty : IsGap "" := by simp [IsGap]
    refine ⟨List.forall_mem_cons.2 ⟨hpair, ?_⟩, List.forall_mem_cons.2 ⟨hempty, ?_⟩, ?_⟩
    · exact List.forall_mem_map.2 hpairs
    · exact List.forall_mem_map.2 fun _ _ => hspace
    · exact List.forall_mem_map.2 fun _ _ => (by decide : " " ≠ "")

/-- Spellings of kinds, written with gaps between any two of them and gaps or nothing at the ends, are read
as these kinds and lexemes. Whatever text is read without an error, its tokens are spellings of their kinds,
and written with single spaces they are read as the same kinds and lexemes. -/
theorem readsAs_write (hseparators : ∀ c ∈ separators, Text.isBlank c = false) :
    (∀ entries back, IsSpaced separators entries → IsGap back →
      ReadsAs separators (write entries back) (entries.map Entry.text)) ∧
    ∀ text tokens, (lexer separators).tokenize text = .ok tokens →
      ∃ ts, tokens = ts ++ [.atEnd (Point.start.advance text.toList)] ∧
        (∀ t ∈ ts, IsSpelling separators t.kind t.lexeme.toList) ∧
        ReadsAs separators (" ".intercalate (ts.map (·.lexeme))) (texts ts) := by
  have hwrite : ∀ entries back, IsSpaced separators entries → IsGap back →
      ReadsAs separators (write entries back) (entries.map Entry.text) := fun entries back hentries hback =>
    readsAs_iff.2 (hentries.exists_scans hseparators hback .start)
  refine ⟨hwrite, fun text tokens h => ?_⟩
  obtain ⟨ts, hts, rfl⟩ := tokenize_lexer_eq_ok_iff.1 h
  refine ⟨ts, rfl, hts.isSpelling, ?_⟩
  have hspelling : ∀ pair ∈ texts ts, IsSpelling separators pair.1 pair.2.toList :=
    List.forall_mem_map.2 hts.isSpelling
  have hlexemes : (texts ts).map (·.2) = ts.map (·.lexeme) := List.map_map ..
  have hspaced := hwrite (spaced (texts ts)) "" (isSpaced_spaced hspelling) (by simp [IsGap])
  rwa [map_text_spaced, write_spaced, hlexemes] at hspaced

/-- An identifier that goes on in what the others begin with, an operator that begins another one and a keyword
that begins an identifier. -/
def neighbours : List Entry :=
  [⟨.identifier, "A1.<", "\n"⟩, ⟨.number, "1.", " "⟩, ⟨.less, "<", "\t "⟩, ⟨.lessEqual, "<=", "\n\n"⟩,
    ⟨.and, "AND", " "⟩, ⟨.identifier, "AND1", " "⟩, ⟨.not, "NOT", " "⟩]

theorem isSpaced_neighbours : IsSpaced ['<', '.', '1'] neighbours := by
  refine ⟨?_, ?_, by decide⟩
  · simp only [neighbours, List.forall_mem_cons]
    refine ⟨?_, ?_, ?_, ?_, ?_, ?_, ?_, by simp⟩
    · exact .identifier (c := 'A') (w := ['1', '.', '<']) (by decide) (List.all_eq_true.1 (by decide))
        (Kind.spelled?_eq_none_iff.1 (by decide))
    · exact .number (c := '1') (w := ['.']) (by decide) (List.all_eq_true.1 (by decide))
    · exact .symbol (by decide)
    · exact .symbol (by decide)
    · exact .keyword (by decide)
    · exact .identifier (c := 'A') (w := ['N', 'D', '1']) (by decide) (List.all_eq_true.1 (by decide))
        (Kind.spelled?_eq_none_iff.1 (by decide))
    · exact .keyword (by decide)
  · have hgaps : neighbours.all (·.gap.toList.all Text.isBlank) = true := by decide
    exact fun e he => List.all_eq_true.1 (List.all_eq_true.1 hgaps e he)

/-- The tokens of `1<=<NOT`. -/
def touching : List (Token Kind) :=
  [⟨.number, "1", ⟨⟨1, 1, 0⟩, ⟨1, 1, 0⟩⟩⟩, ⟨.lessEqual, "<=", ⟨⟨1, 2, 1⟩, ⟨1, 3, 2⟩⟩⟩,
    ⟨.less, "<", ⟨⟨1, 4, 3⟩, ⟨1, 4, 3⟩⟩⟩, ⟨.not, "NOT", ⟨⟨1, 5, 4⟩, ⟨1, 7, 6⟩⟩⟩]

/-- What was kept apart is read as it was written, and what was read where it touched can be kept apart. -/
theorem readsAs_write_neighbours :
    (∀ c ∈ ['<', '.', '1'], Text.isBlank c = false) ∧ IsSpaced ['<', '.', '1'] neighbours ∧ IsGap " " ∧
    ReadsAs ['<', '.', '1'] "\nA1.< 1.\t <\n\n<= AND AND1 NOT "
      [(.identifier, "A1.<"), (.number, "1."), (.less, "<"), (.lessEqual, "<="), (.and, "AND"),
        (.identifier, "AND1"), (.not, "NOT")] ∧
    (lexer ['<', '.', '1']).tokenize "1<=<NOT" = .ok (touching ++ [.atEnd ⟨1, 8, 7⟩]) ∧
    ReadsAs ['<', '.', '1'] "1 <= < NOT"
      [(.number, "1"), (.lessEqual, "<="), (.less, "<"), (.not, "NOT")] := by
  have hseparators : ∀ c ∈ ['<', '.', '1'], Text.isBlank c = false := by
    simp only [List.forall_mem_cons]
    exact ⟨by decide, by decide, by decide, by simp⟩
  have hgap : IsGap " " := List.forall_mem_singleton.2 (by decide)
  have htouching : (lexer ['<', '.', '1']).tokenize "1<=<NOT" = .ok (touching ++ [.atEnd ⟨1, 8, 7⟩]) := by
    rw [tokenize_lexer]
    decide +kernel
  have hwrite : write neighbours " " = "\nA1.< 1.\t <\n\n<= AND AND1 NOT " := by decide +kernel
  have hspaced : " ".intercalate (touching.map (·.lexeme)) = "1 <= < NOT" := by decide +kernel
  obtain ⟨hwritten, hread⟩ := readsAs_write hseparators
  have happart := hwritten neighbours " " isSpaced_neighbours hgap
  obtain ⟨ts, hts, -, hagain⟩ := hread _ _ htouching
  obtain rfl := List.append_inj_left' hts rfl
  rw [hwrite] at happart
  rw [hspaced] at hagain
  exact ⟨hseparators, isSpaced_neighbours, hgap, happart, htouching, hagain⟩

end Predictive.Postfix
