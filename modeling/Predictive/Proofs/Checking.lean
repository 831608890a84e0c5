import Predictive.Check
import Predictive.Proofs.Programs
import Predictive.Proofs.Seams
import Predictive.Proofs.Termination

/-!
# Texts that are programs

A text is accepted exactly if it scans and the kinds of its tokens are those of a program
(`scans_of_check`, `exists_check_of_scans`); else it is refused by the scanner or by the machine, which
always stops. What the machine matches are the tokens. So what is known about cutting and joining texts on
one side, and about the parentheses of programs on the other, carries over: a text cut off an accepted one
is accepted exactly where all parentheses are closed, and accepted texts are put together without a
separator.
-/

namespace Predictive
open Postfix Kind

namespace Postfix
variable {text : String} {tokens ts : List (Token Kind)}

theorem tokenize_eq (text : String) : tokenize text = scanFrom defaultSeparators .start text.toList := by
  rw [tokenize, tokenize_lexer, scan]

theorem tokenize_eq_ok_iff : tokenize text = .ok tokens ↔
    ∃ ts, Scans defaultSeparators .start text.toList ts ∧
      tokens = ts ++ [.atEnd (Point.start.advance text.toList)] :=
  tokenize_lexer_eq_ok_iff

theorem scans_of_tokenize {p : Point} (h : tokenize text = .ok (ts ++ [.atEnd p])) :
    Scans defaultSeparators .start text.toList ts :=
  scans_of_tokenize_lexer h

end Postfix

section
-- that the loaded grammar is the built-in one has to be seen without computing either
attribute [local irreducible] grammar table

variable {text : String} {tokens ts : List (Token Kind)} {steps : List (Step grammar)}

theorem Loaded.check_of_tokenize_error {l : Loaded} {e : ScanError} (h : tokenize text = .error e) :
    l.check text = .error (.scan e) := by
  simp only [Loaded.check, h]

theorem Loaded.check_of_tokenize {l : Loaded} {result : ParseResult l.grammar} (h : tokenize text = .ok tokens)
    (hparse : l.table.parse tokens = some result) :
    l.check text = match result.error with
      | none => .ok result.derivation
      | some e => .error (.parse e) := by
  obtain ⟨steps, - | e⟩ := result <;> simp only [Loaded.check, h, hparse]

/-- A text that scans is accepted or has a syntax error. -/
theorem check_of_tokenize (h : tokenize text = .ok tokens) :
    (∃ steps, check text = .ok steps ∧ parse tokens = some ⟨steps, none⟩) ∨
    ∃ e steps, check text = .error (.parse e) ∧ parse tokens = some ⟨steps, some e⟩ := by
  have hpred := Table.predicts_of_ofGrammar ofGrammar_eq_ok
  have hends : (Config.start grammar tokens).EndsOnce := ⟨[.nonterminal grammar.start], rfl, by simp⟩
  obtain ⟨⟨steps, error⟩, hstops⟩ := hpred.exists_stopsFrom endMarker_not_mem_right hends
  have hparse : parse tokens = some ⟨steps, error⟩ := Table.parse_eq_some_iff.2 hstops
  have hcheck := Loaded.check_of_tokenize (l := .builtIn) h hparse
  cases error with
  | none => exact .inl ⟨steps, hcheck, hparse⟩
  | some e => exact .inr ⟨e, steps, hcheck, hparse⟩

theorem check_of_tokenize_error {e : ScanError} (h : tokenize text = .error e) :
    check text = .error (.scan e) := Loaded.check_of_tokenize_error h

/-- An accepted text scans into the tokens of a program, and the machine matches them. -/
theorem scans_of_check (h : check text = .ok steps) :
    ∃ ts, Scans defaultSeparators .start text.toList ts ∧ IsProgram (kinds ts) ∧
      tokensRead steps = ts.map .ofToken ++ [.atEnd (Point.start.advance text.toList)] := by
  cases htokens : tokenize text with
  | error e =>
    rw [check_of_tokenize_error htokens] at h
    cases h
  | ok tokens =>
    rcases check_of_tokenize htokens with ⟨steps', hcheck, hparse⟩ | ⟨e, steps', hcheck, -⟩
    · rw [hcheck] at h
      cases h
      obtain ⟨ts, hts, rfl⟩ := tokenize_eq_ok_iff.1 htokens
      obtain ⟨hprogram, hread⟩ := isProgram_of_parse hparse Kind.endMarker_eq
      refine ⟨ts, hts, hprogram, ?_⟩
      rw [hread, List.map_append]
      rfl
    · rw [hcheck] at h
      cases h

theorem exists_check_of_scans (hts : Scans defaultSeparators .start text.toList ts)
    (h : IsProgram (kinds ts)) : ∃ steps, check text = .ok steps := by
  rcases check_of_tokenize (tokenize_eq_ok_iff.2 ⟨ts, hts, rfl⟩) with ⟨steps, hcheck, -⟩ |
    ⟨e, steps, -, hparse⟩
  · exact ⟨steps, hcheck⟩
  · obtain ⟨steps', hsteps'⟩ := exists_parse_of_isProgram h
      (t := (Token.atEnd (Point.start.advance text.toList))) rfl
    rw [hparse] at hsteps'
    cases hsteps'

end

/-! ### Cutting an accepted text -/

/-- The parentheses of an accepted text are balanced. What is cut off at the front of it is accepted exactly
if it has a token and closes all parentheses. If it does not scan, then it ends in the character that the
scanner refuses, half of `&&` or `==`; else it has a syntax error if it is not accepted. -/
theorem check_cut {text : String} {steps : List (Step grammar)} (h : check text = .ok steps) :
    (∃ tokens, tokenize text = .ok tokens ∧ Balanced (kinds tokens)) ∧
    ∀ front : String, front.toList <+: text.toList →
      ((∃ steps, check front = .ok steps) ↔
        ∃ ts stop, tokenize front = .ok (ts ++ [.atEnd stop]) ∧ ts ≠ [] ∧ Closes (kinds ts)) ∧
      (∀ e, tokenize front = .error e → (e.character = '&' ∨ e.character = '=') ∧
        ∃ before, front.toList = before ++ [e.character] ∧ e.position = Point.start.advance before) ∧
      ∀ tokens e, tokenize front = .ok tokens → check front = .error e → ∃ e', e = .parse e' := by
  obtain ⟨ts, hts, hprogram, -⟩ := scans_of_check h
  have hmarker : ¬ IsParen endOfInput := by decide
  refine ⟨⟨_, tokenize_eq_ok_iff.2 ⟨ts, hts, rfl⟩, ?_⟩, fun front hfront => ⟨⟨?_, ?_⟩, ?_, ?_⟩⟩
  · rw [kinds, List.map_append]
    exact hprogram.balanced.append (.singleton hmarker)
  · rintro ⟨steps, hsteps⟩
    obtain ⟨ts', hts', hprogram', -⟩ := scans_of_check hsteps
    have hne : ts' ≠ [] := by
      rintro rfl
      exact hprogram'.ne_nil rfl
    exact ⟨ts', _, tokenize_eq_ok_iff.2 ⟨ts', hts', rfl⟩, hne, hprogram'.balanced.closes⟩
  · rintro ⟨ts', stop, htokens, hne, hcloses⟩
    rcases hts.cut hfront with ⟨ts₀, hts₀, hcut⟩ | ⟨before, c, -, -, herror⟩
    · obtain rfl := hts₀.unique (scans_of_tokenize htokens)
      have hnekinds : kinds ts₀ ≠ [] := fun hnil => hne (List.map_eq_nil_iff.1 hnil)
      exact exists_check_of_scans hts₀ ((hcut.isProgram_iff hprogram).2 ⟨hnekinds, hcloses⟩)
    · rw [tokenize_eq, herror] at htokens
      cases htokens
  · intro e he
    rcases hts.cut hfront with ⟨ts', hts', -⟩ | ⟨before, c, hfront, hc, herror⟩
    · rw [tokenize_eq_ok_iff.2 ⟨ts', hts', rfl⟩] at he
      cases he
    · rw [tokenize_eq, herror] at he
      cases he
      exact ⟨hc, before, hfront, rfl⟩
  · intro tokens e htokens he
    rcases check_of_tokenize htokens with ⟨steps, hcheck, -⟩ | ⟨e', steps, hcheck, -⟩
    · rw [he] at hcheck
      cases hcheck
    · rw [he] at hcheck
      exact ⟨e', Except.error.inj hcheck⟩

theorem exists_check_five : ∃ steps, check "(5)" = .ok steps := by
  have hscans : Scans defaultSeparators .start "(5)".toList [⟨openParen, "(", .single ⟨1, 1, 0⟩⟩,
      ⟨number, "5", .single ⟨1, 2, 1⟩⟩, ⟨closeParen, ")", .single ⟨1, 3, 2⟩⟩] :=
    .token (w := ['(']) (by decide) (.token (w := ['5']) (by decide) (.token (w := [')']) (by decide) (.nil _)))
  exact exists_check_of_scans hscans (.line (.mk (.expression (.operand .number))))

/-- The program `(5)` is accepted, and `(5` is not. -/
theorem check_cut_five : ∃ steps, check "(5)" = .ok steps ∧ ¬ ∃ steps, check "(5" = .ok steps := by
  obtain ⟨steps, h⟩ := exists_check_five
  refine ⟨steps, h, fun hfront => ?_⟩
  have hscans : Scans defaultSeparators .start "(5".toList [⟨openParen, "(", .single ⟨1, 1, 0⟩⟩,
      ⟨number, "5", .single ⟨1, 2, 1⟩⟩] :=
    .token (w := ['(']) (by decide) (.token (w := ['5']) (by decide) (.nil _))
  obtain ⟨ts, stop, htokens, -, hcloses⟩ := ((check_cut h).2 "(5" ⟨[')'], rfl⟩).1.1 hfront
  rw [(scans_of_tokenize htokens).unique hscans] at hcloses
  exact absurd hcloses (by decide)

/-! ### Joining texts -/

/-- The kind and the text of each token that the steps match. -/
def readings (steps : List (Step grammar)) : List (Kind × String) :=
  (tokensRead steps).map fun t => (t.kind, t.lexeme)

theorem readings_eq {steps : List (Step grammar)} {ts : List (Token Kind)} {p : Point}
    (h : tokensRead steps = ts.map .ofToken ++ [.atEnd p]) :
    readings steps = texts ts ++ [(endOfInput, "")] := by
  rw [readings, h, List.map_append, List.map_map]
  rfl

section
variable {text more : String} {steps : List (Step grammar)} {ts ts' : List (Token Kind)}
  (hts : Scans defaultSeparators .start text.toList ts) (hprogram : IsProgram (kinds ts))
include hts hprogram

/-- Behind a program the text that goes on is blank or a program. -/
theorem scans_of_check_append (h : check (text ++ more) = .ok steps) :
    ∃ ts', Scans defaultSeparators (Point.start.advance text.toList) more.toList ts' ∧
      (ts' = [] ∨ IsProgram (kinds ts')) ∧ readings steps = texts ts ++ (texts ts' ++ [(endOfInput, "")]) := by
  obtain ⟨_, hall, hprogram', hread⟩ := scans_of_check h
  rw [String.toList_append] at hall
  obtain ⟨ts', hts', rfl⟩ := (hts.append_iff (.inr hprogram.eq_concat)).1 hall
  rw [kinds, List.map_append] at hprogram'
  refine ⟨ts', hts', ?_, ?_⟩
  · rcases hprogram.append_iff.1 hprogram' with hnil | hmore
    · exact .inl (List.map_eq_nil_iff.1 hnil)
    · exact .inr hmore
  · rw [readings_eq hread, texts, List.map_append, List.append_assoc]
    rfl

theorem exists_check_append
    (hts' : Scans defaultSeparators (Point.start.advance text.toList) more.toList ts')
    (hmore : ts' = [] ∨ IsProgram (kinds ts')) : ∃ steps, check (text ++ more) = .ok steps := by
  have hall := (hts.append_iff (.inr hprogram.eq_concat)).2 ⟨ts', hts', rfl⟩
  rw [← String.toList_append] at hall
  refine exists_check_of_scans hall ?_
  rw [kinds, List.map_append]
  refine hprogram.append_iff.2 (hmore.imp_left fun hnil => ?_)
  rw [hnil]
  rfl

end

/-- Behind an accepted text another one is accepted exactly if it is blank or accepted by itself. Then its
tokens are matched behind those of the first text, whose end marker goes. -/
theorem check_append {text : String} {steps : List (Step grammar)} (h : check text = .ok steps) (more : String) :
    ((∃ all, check (text ++ more) = .ok all) ↔
      (∀ c ∈ more.toList, Text.isBlank c = true) ∨ ∃ rest, check more = .ok rest) ∧
    ∃ lines, readings steps = lines ++ [(endOfInput, "")] ∧
      ∀ all, check (text ++ more) = .ok all →
        ((∀ c ∈ more.toList, Text.isBlank c = true) → readings all = lines ++ [(endOfInput, "")]) ∧
        ∀ rest, check more = .ok rest → readings all = lines ++ readings rest := by
  obtain ⟨ts, hts, hprogram, hread⟩ := scans_of_check h
  refine ⟨⟨?_, ?_⟩, texts ts, readings_eq hread, fun all hall => ?_⟩
  · rintro ⟨all, hall⟩
    obtain ⟨ts', hts', hnil | hmore, -⟩ := scans_of_check_append hts hprogram hall
    · subst hnil
      exact .inl (Scans.nil_iff.1 hts')
    · obtain ⟨ts'', hts'', htexts⟩ := hts'.restart .start
      rw [← kinds_of_texts htexts] at hmore
      exact .inr (exists_check_of_scans hts'' hmore)
  · rintro (hblank | ⟨rest, hrest⟩)
    · exact exists_check_append hts hprogram (Scans.nil_iff.2 hblank) (.inl rfl)
    · obtain ⟨ts', hts', hmore, -⟩ := scans_of_check hrest
      obtain ⟨ts'', hts'', htexts⟩ := hts'.restart (Point.start.advance text.toList)
      rw [← kinds_of_texts htexts] at hmore
      exact exists_check_append hts hprogram hts'' (.inr hmore)
  · obtain ⟨ts', hts', -, hreadings⟩ := scans_of_check_append hts hprogram hall
    refine ⟨fun hblank => ?_, fun rest hrest => ?_⟩
    · obtain rfl := hts'.unique (Scans.nil_iff.2 hblank)
      exact hreadings
    · obtain ⟨ts₁, hts₁, -, hread₁⟩ := scans_of_check hrest
      obtain ⟨ts₂, hts₂, htexts⟩ := hts₁.restart (Point.start.advance text.toList)
      obtain rfl := hts'.unique hts₂
      rw [hreadings, readings_eq hread₁, htexts]

/-- The program `(5)` twice is a program, and its tokens are matched twice. -/
theorem check_append_five : ∃ steps all, check "(5)" = .ok steps ∧ check ("(5)" ++ "(5)") = .ok all ∧
    ∃ lines, readings steps = lines ++ [(endOfInput, "")] ∧ readings all = lines ++ readings steps := by
  obtain ⟨steps, h⟩ := exists_check_five
  obtain ⟨haccept, lines, hsteps, hread⟩ := check_append h "(5)"
  obtain ⟨all, hall⟩ := haccept.2 (.inr ⟨steps, h⟩)
  exact ⟨steps, all, h, hall, lines, hsteps, (hread all hall).2 steps h⟩

end Predictive
