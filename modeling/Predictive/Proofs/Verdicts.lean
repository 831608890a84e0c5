import Mathlib.Data.List.Forall2
import Predictive.Proofs.Checking
import Predictive.Proofs.Printing

/-!
# Checking line by line

A text is checked as the programs in its lines, each for itself. What is printed is read back here from
the output alone: a verdict is told apart from the other lines by one character of it (`markOf`), and no
line holds a line feed, whatever the text is. What the verdict says is what `check` says
(`verdictOf_cases`), and so does the exit code.

If all lines are accepted, the text without its comments is a program too. Its lines are put together from
texts that have no tokens or those of a program (`IsPart`). Such texts can be put together, since a
program ends in a parenthesis, which no token goes on with.
-/

namespace Predictive
open Postfix

/-- The text is a program. -/
def Accepts (s : List Char) : Prop := ∃ steps, check (String.ofList s) = .ok steps

namespace Command

/-- The line says of some program that it is accepted, or why it is not. -/
def IsVerdict (line : String) : Prop :=
  ∃ number : Nat, line = s!"{number}: ok" ∨ ∃ message : String, line = s!"{number}: error: {message}"

/-- The line says what `check` says of the program. -/
inductive Reports (number : Nat) (program : String) : String → Prop where
  | ok {steps : List (Step grammar)} : check program = .ok steps → Reports number program s!"{number}: ok"
  | scan {e : ScanError} : check program = .error (.scan e) →
    Reports number program s!"{number}: error: {e.message}"
  | parse {e : ParseError Kind} : check program = .error (.parse e) →
    Reports number program s!"{number}: error: {e.message}"

/-- What is reported depends on the number and the program alone. -/
theorem Reports.unique {number : Nat} {program line line' : String} (h : Reports number program line)
    (h' : Reports number program line') : line = line' := by
  cases h with
  | ok h => cases h' <;> simp_all
  | scan h => cases h' <;> simp_all
  | parse h => cases h' <;> simp_all

/-- What is printed for a line: nothing, or one verdict with other lines in front. -/
inductive Prints (number : Nat) (line : List Char) : List String → Prop where
  | nothing : Text.HoldsNothing line → Prints number line []
  | verdict {front : List String} {last : String} : ¬ Text.HoldsNothing line → (∀ l ∈ front, ¬ IsVerdict l) →
    Reports number (String.ofList (Text.content line)) last → Prints number line (front ++ [last])

/-- What is printed for a text and the exit code are what `check` says of its lines. If all of them are
accepted, so is the whole text without its comments. -/
structure Outcome.LineByLine (out : Outcome) (text : List Char) : Prop where
  printed : ∃ blocks : List (List String),
    (Text.lines out.output.toList).map String.ofList = blocks.flatten ∧
    List.Forall₂ (fun numbered block => Prints numbered.2 numbered.1 block) ((Text.lines text).zipIdx 1) blocks
  exitCode_le_one : out.exitCode ≤ 1
  exitCode_eq_zero_iff : out.exitCode = 0 ↔
    ∀ line ∈ Text.lines text, ¬ Text.HoldsNothing line → Accepts (Text.content line)
  whole : out.exitCode = 0 → (∃ line ∈ Text.lines text, ¬ Text.HoldsNothing line) →
    Accepts (['\n'].intercalate ((Text.lines text).map Text.uncommented))

end Command

/-! ### Texts put together from programs -/

namespace Postfix
open Kind

/-- The text has no tokens, or those of a program. -/
def IsPart (s : List Char) : Prop :=
  ∀ p, ∃ ts, Scans defaultSeparators p s ts ∧ (ts = [] ∨ IsProgram (kinds ts))

namespace IsPart
variable {s t : List Char}

theorem of_blank (h : ∀ c ∈ s, Text.isBlank c = true) : IsPart s :=
  fun _ => ⟨[], Scans.nil_iff.2 h, .inl rfl⟩

theorem of_accepts (h : Accepts s) : IsPart s := by
  intro p
  obtain ⟨steps, h⟩ := h
  obtain ⟨ts, hts, hprogram, -⟩ := scans_of_check h
  rw [String.toList_ofList] at hts
  obtain ⟨ts', hts', htexts⟩ := hts.restart p
  rw [← kinds_of_texts htexts] at hprogram
  exact ⟨ts', hts', .inr hprogram⟩

/-- A program ends in a parenthesis, so the two texts stay apart. -/
theorem append (hs : IsPart s) (ht : IsPart t) : IsPart (s ++ t) := by
  intro p
  obtain ⟨ts, hts, hprogram⟩ := hs p
  obtain ⟨ts', hts', hprogram'⟩ := ht (p.advance s)
  -- so no token of the first text can go on into the second
  have hlast : kinds ts = [] ∨ ∃ u, kinds ts = u ++ [closeParen] := by
    rcases hprogram with rfl | hprogram
    · exact .inl rfl
    · exact .inr hprogram.eq_concat
  refine ⟨ts ++ ts', (hts.append_iff hlast).2 ⟨ts', hts', rfl⟩, ?_⟩
  rcases hprogram with rfl | hprogram
  · exact hprogram'
  · refine .inr ?_
    rw [kinds, List.map_append]
    refine hprogram.append_iff.2 (hprogram'.imp_left fun hnil => ?_)
    rw [hnil]
    rfl

theorem intercalate {ls : List (List Char)} (h : ∀ l ∈ ls, IsPart l) : IsPart (['\n'].intercalate ls) := by
  induction ls with
  | nil => exact of_blank (by simp)
  | cons l ls ih =>
    obtain ⟨hl, hls⟩ := List.forall_mem_cons.1 h
    cases ls with
    | nil => rwa [List.intercalate_singleton]
    | cons l' ls =>
      rw [List.intercalate_cons_cons]
      exact (hl.append (of_blank (List.forall_mem_singleton.2 (by decide)))).append (ih hls)

theorem accepts (h : IsPart s) (hne : ¬ ∀ c ∈ s, Text.isBlank c = true) : Accepts s := by
  obtain ⟨ts, hts, hprogram⟩ := h .start
  rcases hprogram with rfl | hprogram
  · exact absurd (Scans.nil_iff.1 hts) hne
  · refine exists_check_of_scans ?_ hprogram
    rwa [String.toList_ofList]

end IsPart

end Postfix

theorem isPart_uncommented {line : List Char} (h : ¬ Text.HoldsNothing line → Accepts (Text.content line)) :
    IsPart (Text.uncommented line) := by
  by_cases hnothing : Text.HoldsNothing line
  · exact .of_blank hnothing
  · obtain ⟨lead, trail, hsplit, hlead, htrail⟩ := Text.exists_trim (Text.uncommented line)
    rw [hsplit]
    exact ((IsPart.of_blank hlead).append (.of_accepts (h hnothing))).append (.of_blank htrail)

theorem accepts_uncommented {ls : List (List Char)}
    (h : ∀ line ∈ ls, ¬ Text.HoldsNothing line → Accepts (Text.content line))
    (hne : ∃ line ∈ ls, ¬ Text.HoldsNothing line) :
    Accepts (['\n'].intercalate (ls.map Text.uncommented)) := by
  refine (IsPart.intercalate fun l hl => ?_).accepts ?_
  · obtain ⟨line, hline, rfl⟩ := List.mem_map.1 hl
    exact isPart_uncommented (h line hline)
  · obtain ⟨line, hline, hnothing⟩ := hne
    intro hblank
    refine hnothing fun c hc => hblank c ?_
    exact Text.mem_intercalate_of_mem (List.mem_map.2 ⟨line, hline, rfl⟩) hc

/-! ### The lines of one verdict -/

namespace Command

/-- The third character behind the number that the line begins with, if it does. Verdicts have another one
there than all other lines. -/
def markOf (line : String) : Option Char := (line.toList.dropWhile Char.isDigit)[2]?

theorem markOf_number (number : Nat) {s : String} {mark : Char} {w : List Char}
    (hs : s.toList = ':' :: ' ' :: mark :: w) : markOf (toString number ++ s) = some mark := by
  have hdigits : ∀ c ∈ Nat.toDigits 10 number, c.isDigit = true :=
    fun c hc => Nat.isDigit_of_mem_toDigits (by decide) (by decide) hc
  rw [markOf, String.toList_append, Nat.toString_eq_repr, Nat.toList_repr,
    List.dropWhile_append_of_pos hdigits, hs]
  rfl

theorem markOf_of_isVerdict {line : String} (h : IsVerdict line) :
    markOf line = some 'o' ∨ markOf line = some 'e' := by
  rcases h with ⟨number, rfl | ⟨message, rfl⟩⟩
  · exact .inl (markOf_number number (s := ": ok") rfl)
  · refine .inr ?_
    show markOf (toString number ++ ": error: " ++ message) = some 'e'
    rw [String.append_assoc]
    exact markOf_number number (by rw [String.toList_append]; rfl)

theorem not_isVerdict_tokens (number : Nat) (s : String) : ¬ IsVerdict (s!"{number}: tokens: " ++ s) := by
  intro h
  have hmark : markOf (toString number ++ ": tokens: " ++ s) = some 't' := by
    rw [String.append_assoc]
    exact markOf_number number (by rw [String.toList_append]; rfl)
  rcases markOf_of_isVerdict h with h | h <;> cases hmark.symm.trans h

theorem not_isVerdict_step (s : String) : ¬ IsVerdict ("    " ++ s) := by
  intro h
  have hmark := markOf_of_isVerdict h
  rw [markOf, String.toList_append] at hmark
  rcases hmark with hmark | hmark <;> cases hmark

namespace Verdict
variable {l : Loaded} {cut : Lexer Kind} {number : Nat} {program : String}

theorem of_tokenize_error {e : ScanError} (h : cut.tokenize program = .error e) :
    Verdict.of l cut number program = ⟨number, none, [], some e.message, []⟩ := by
  simp only [Verdict.of, h]

theorem of_tokenize {tokens : List (Token Kind)} {result : ParseResult l.grammar}
    (h : cut.tokenize program = .ok tokens) (hparse : l.table.parse tokens = some result) :
    Verdict.of l cut number program = ⟨number, some tokens, result.derivation.map Step.describe,
      result.error.map ParseError.message, l.table.parseRecords tokens⟩ := by
  simp only [Verdict.of, h, hparse]

end Verdict

/-- The verdict of the built-in language on a program. -/
abbrev verdictOf (number : Nat) (program : String) : Verdict :=
  .of .builtIn (lexer defaultSeparators) number program

section
-- unfolding these would run the built-in grammar's passes
attribute [local irreducible] grammar table

/-- A verdict is what `check` says, with what it was found out from. -/
theorem verdictOf_cases (number : Nat) (program : String) :
    (∃ e, check program = .error (.scan e) ∧
      verdictOf number program = ⟨number, none, [], some e.message, []⟩) ∨
    (∃ tokens steps records, check program = .ok steps ∧
      verdictOf number program = ⟨number, some tokens, steps.map Step.describe, none, records⟩) ∨
    ∃ tokens steps e records, check program = .error (.parse e) ∧ parse tokens = some ⟨steps, some e⟩ ∧
      verdictOf number program =
        ⟨number, some tokens, steps.map Step.describe, some e.message, records⟩ := by
  cases htokens : tokenize program with
  | error e => exact .inl ⟨e, check_of_tokenize_error htokens, Verdict.of_tokenize_error htokens⟩
  | ok tokens =>
    rcases check_of_tokenize htokens with ⟨steps, hcheck, hparse⟩ | ⟨e, steps, hcheck, hparse⟩
    · exact .inr (.inl ⟨tokens, steps, _, hcheck, Verdict.of_tokenize (l := .builtIn) htokens hparse⟩)
    · exact .inr (.inr ⟨tokens, steps, e, _, hcheck, hparse,
        Verdict.of_tokenize (l := .builtIn) htokens hparse⟩)

end

namespace Verdict

/-- The last line of a verdict, which is the verdict itself. -/
def last (v : Verdict) : String :=
  match v.error with
  | none => s!"{v.number}: ok"
  | some message => s!"{v.number}: error: {message}"

/-- In front of the verdict itself are lines that list the tokens or show a step. -/
theorem exists_front (o : Options) (v : Verdict) : ∃ front, v.lines o = front ++ [v.last] ∧
    ∀ l ∈ front, (∃ tokens : List (Token Kind),
      l = s!"{v.number}: tokens: " ++ " ".intercalate (tokens.map tokenText)) ∨
      ∃ step ∈ v.steps, l = "    " ++ step := by
  refine ⟨_, rfl, fun l hl => ?_⟩
  rcases List.mem_append.1 hl with hl | hl
  · split at hl
    · obtain ⟨tokens, -, rfl⟩ := List.mem_map.1 hl
      exact .inl ⟨tokens, rfl⟩
    · cases hl
  · split at hl
    · obtain ⟨step, hstep, rfl⟩ := List.mem_map.1 hl
      exact .inr ⟨step, hstep, rfl⟩
    · cases hl

end Verdict

theorem reports_last (number : Nat) (program : String) :
    Reports number program (verdictOf number program).last := by
  rcases verdictOf_cases number program with ⟨e, hcheck, hv⟩ | ⟨tokens, steps, records, hcheck, hv⟩ |
    ⟨tokens, steps, e, records, hcheck, -, hv⟩
  · rw [hv]
    exact .scan hcheck
  · rw [hv]
    exact .ok hcheck
  · rw [hv]
    exact .parse hcheck

theorem prints_lines (o : Options) {number : Nat} {line : List Char} (h : ¬ Text.HoldsNothing line) :
    Prints number line ((verdictOf number (String.ofList (Text.content line))).lines o) := by
  obtain ⟨front, hlines, hfront⟩ :=
    (verdictOf number (String.ofList (Text.content line))).exists_front o
  rw [hlines]
  refine .verdict h (fun l hl => ?_) (reports_last _ _)
  rcases hfront l hl with ⟨tokens, rfl⟩ | ⟨step, -, rfl⟩
  · exact not_isVerdict_tokens _ _
  · exact not_isVerdict_step _

theorem oneLine_token (t : Token Kind) : OneLine (Verdict.tokenText t) :=
  (((oneLine_kind t.kind).append (by decide)).append (Text.oneLine_quote _)).append (by decide)

theorem oneLine_lines (o : Options) (number : Nat) (program : String) :
    ∀ l ∈ (verdictOf number program).lines o, OneLine l := by
  obtain ⟨front, hlines, hfront⟩ := (verdictOf number program).exists_front o
  have hnumber : OneLine s!"{number}: error: " := (oneLine_nat number).append (by decide)
  have hverdict : OneLine (verdictOf number program).last ∧
      ∀ step ∈ (verdictOf number program).steps, OneLine step := by
    have hsteps (steps : List (Step grammar)) : ∀ step ∈ steps.map Step.describe, OneLine step := by
      intro step hstep
      obtain ⟨step, -, rfl⟩ := List.mem_map.1 hstep
      exact oneLine_step step
    rcases verdictOf_cases number program with ⟨e, -, hv⟩ | ⟨tokens, steps, records, -, hv⟩ |
      ⟨tokens, steps, e, records, -, hparse, hv⟩
    · rw [hv]
      exact ⟨hnumber.append (oneLine_scanError e), by simp⟩
    · rw [hv]
      exact ⟨(oneLine_nat number).append (by decide), hsteps steps⟩
    · rw [hv]
      exact ⟨hnumber.append (oneLine_of_parse hparse), hsteps steps⟩
  rw [hlines]
  intro l hl
  rcases List.mem_append.1 hl with hl | hl
  · rcases hfront l hl with ⟨tokens, rfl⟩ | ⟨step, hstep, rfl⟩
    · refine OneLine.append ((oneLine_nat _).append (by decide)) (.intercalate (by decide) fun t ht => ?_)
      obtain ⟨token, -, rfl⟩ := List.mem_map.1 ht
      exact oneLine_token token
    · exact .append (by decide) (hverdict.2 step hstep)
  · rw [List.mem_singleton.1 hl]
    exact hverdict.1

theorem isSome_error_iff (number : Nat) (s : List Char) :
    (verdictOf number (String.ofList s)).error.isSome = true ↔ ¬ Accepts s := by
  have hrejected {e : CheckError} (h : check (String.ofList s) = .error e) : ¬ Accepts s := by
    rintro ⟨steps, hsteps⟩
    rw [h] at hsteps
    cases hsteps
  rcases verdictOf_cases number (String.ofList s) with ⟨e, hcheck, hv⟩ | ⟨tokens, steps, records, hcheck, hv⟩ |
    ⟨tokens, steps, e, records, hcheck, -, hv⟩
  · rw [hv]
    exact ⟨fun _ => hrejected hcheck, fun _ => rfl⟩
  · rw [hv]
    exact ⟨(nomatch ·), fun h => absurd ⟨steps, hcheck⟩ h⟩
  · rw [hv]
    exact ⟨fun _ => hrejected hcheck, fun _ => rfl⟩

/-! ### The whole run -/

/-- What is printed for a line with its number. -/
def blockOf (o : Options) (numbered : List Char × Nat) : List String :=
  match Text.content numbered.1 with
  | [] => []
  | program => (verdictOf numbered.2 (String.ofList program)).lines o

theorem prints_blockOf (o : Options) (line : List Char) (number : Nat) :
    Prints number line (blockOf o (line, number)) := by
  unfold blockOf
  split
  · next h => exact .nothing (Text.content_eq_nil_iff.1 h)
  · next h => exact prints_lines o (mt Text.content_eq_nil_iff.2 h)

theorem oneLine_blockOf (o : Options) (numbered : List Char × Nat) : ∀ l ∈ blockOf o numbered, OneLine l := by
  unfold blockOf
  split
  · simp
  · exact oneLine_lines o _ _

/-- What is printed line by line is what is printed for the programs in the lines. -/
theorem flatMap_blockOf (o : Options) (text : String) :
    ((Text.lines text.toList).zipIdx 1).flatMap (blockOf o) =
      (programs text).flatMap fun p => (verdictOf p.1 p.2).lines o := by
  rw [programs, List.filterMap_eq_flatMap_toList, List.flatMap_assoc]
  refine List.flatMap_congr fun numbered _ => ?_
  unfold blockOf
  dsimp only
  split <;> simp_all

theorem mem_programs {text : String} {number : Nat} {program : String} : (number, program) ∈ programs text ↔
    ∃ line, (line, number) ∈ (Text.lines text.toList).zipIdx 1 ∧ ¬ Text.HoldsNothing line ∧
      program = String.ofList (Text.content line) := by
  rw [programs, List.mem_filterMap]
  constructor
  · rintro ⟨⟨line, n⟩, hmem, h⟩
    dsimp only at h
    split at h
    · cases h
    · next hcontent =>
      cases h
      exact ⟨line, hmem, mt Text.content_eq_nil_iff.2 hcontent, rfl⟩
  · rintro ⟨line, hmem, hline, rfl⟩
    refine ⟨(line, number), hmem, ?_⟩
    dsimp only
    split
    · next hcontent => exact absurd (Text.content_eq_nil_iff.1 hcontent) hline
    · rfl

section
variable {o : Options} {sources : Sources} {text : String} (hgrammar : o.grammar = none)
  (htable : o.printTable = false) (hseparators : o.separators = none ∨ o.separators = some "_")
  (htext : input o sources = .ok text)
include hgrammar htable hseparators htext

theorem run_eq :
    (run o sources).output = unlines (((Text.lines text.toList).zipIdx 1).flatMap (blockOf o)) ∧
    (run o sources).failure = none ∧
    (run o sources).rejected = ((programs text).map fun p => verdictOf p.1 p.2).countP (·.error.isSome) := by
  have hverdicts : verdicts o .builtIn text = (programs text).map fun p => verdictOf p.1 p.2 := by
    unfold verdicts
    rcases hseparators with h | h <;> rw [h] <;> rfl
  unfold run load
  simp only [hgrammar, htable, htext, hverdicts, flatMap_blockOf, List.flatMap_map, Bool.false_eq_true, if_false,
    and_self]

theorem exitCode_eq_zero_iff : (run o sources).exitCode = 0 ↔
    ∀ line ∈ Text.lines text.toList, ¬ Text.HoldsNothing line → Accepts (Text.content line) := by
  obtain ⟨-, hfailure, hrejected⟩ := run_eq hgrammar htable hseparators htext
  have hzero : (run o sources).exitCode = 0 ↔ (run o sources).rejected = 0 := by
    unfold Outcome.exitCode
    rw [hfailure]
    simp [Nat.pos_iff_ne_zero]
  rw [hzero, hrejected, List.countP_eq_zero, List.forall_mem_map]
  constructor
  · intro h line hline hnothing
    rw [← List.zipIdx_map_fst 1 (Text.lines text.toList)] at hline
    obtain ⟨⟨line, number⟩, hmem, rfl⟩ := List.mem_map.1 hline
    have herror := h _ (mem_programs.2 ⟨line, hmem, hnothing, rfl⟩)
    rwa [isSome_error_iff, not_not] at herror
  · rintro h ⟨number, program⟩ hp
    obtain ⟨line, hmem, hnothing, rfl⟩ := mem_programs.1 hp
    rw [isSome_error_iff, not_not]
    exact h line (List.fst_mem_of_mem_zipIdx hmem) hnothing

/-- With the built-in grammar, checking a text line by line agrees with `check`. -/
theorem run_lineByLine : (run o sources).LineByLine text.toList where
  printed := by
    refine ⟨((Text.lines text.toList).zipIdx 1).map (blockOf o), ?_, ?_⟩
    · obtain ⟨houtput, -⟩ := run_eq hgrammar htable hseparators htext
      rw [houtput, lines_unlines, List.flatMap_def]
      intro l hl
      obtain ⟨numbered, -, hl⟩ := List.mem_flatMap.1 hl
      exact oneLine_blockOf o numbered l hl
    · rw [List.forall₂_map_right_iff, List.forall₂_same]
      exact fun numbered _ => prints_blockOf o numbered.1 numbered.2
  exitCode_le_one := by
    unfold Outcome.exitCode
    split <;> decide
  exitCode_eq_zero_iff := exitCode_eq_zero_iff hgrammar htable hseparators htext
  whole hzero hne := accepts_uncommented ((exitCode_eq_zero_iff hgrammar htable hseparators htext).1 hzero) hne

end

/-- A program with a comment, and its tokens asked for. -/
theorem run_lineByLine_five :
    (run { tokens := true } ⟨fun _ => .error .missing, .ok "(5) # five\n"⟩).LineByLine "(5) # five\n".toList ∧
    (run { tokens := true } ⟨fun _ => .error .missing, .ok "(5) # five\n"⟩).exitCode = 0 := by
  have h : (run { tokens := true } ⟨fun _ => .error .missing, .ok "(5) # five\n"⟩).LineByLine
      "(5) # five\n".toList := run_lineByLine rfl rfl (.inl rfl) rfl
  refine ⟨h, h.exitCode_eq_zero_iff.2 fun line hline _ => ?_⟩
  have hlines : Text.lines "(5) # five\n".toList = ["(5) # five".toList] := by decide
  have hcontent : Text.content "(5) # five".toList = ['(', '5', ')'] := by decide
  rw [hlines, List.mem_singleton] at hline
  rw [hline, hcontent]
  exact exists_check_five

end Command

end Predictive
