import Mathlib.Data.List.Basic
import Predictive.Postfix.Spelling

/-!
# How the written rules are read

A quoted text is read as the literal that it is (`ofContent?_quote`), whatever its characters are, and
the rule for words as a letter and a choice of letters and separators (`ofContent?_wordText`).

The three steps of reading are followed one by one, each with a text behind that is read later.
-/

namespace Predictive
namespace Pattern
variable {c : Char} {s t : List Char}

/-! ### Marks -/

/-- The text gives the marks, whatever stands behind it. -/
def Writes (s : List Char) (ms : List Mark) : Prop :=
  ∃ gs : List Glyph, (∀ t, glyphs (s ++ t) = (glyphs t).map (gs ++ ·)) ∧
    ∀ hs, marks [] 0 (gs ++ hs) = (marks [] 0 hs).map (ms ++ ·)

namespace Writes
variable {ms ms' : List Mark}

theorem nil : Writes [] [] := ⟨[], by simp, by simp⟩

theorem append (h : Writes s ms) (h' : Writes t ms') : Writes (s ++ t) (ms ++ ms') := by
  obtain ⟨gs, hglyphs, hmarks⟩ := h
  obtain ⟨gs', hglyphs', hmarks'⟩ := h'
  refine ⟨gs ++ gs', fun u => ?_, fun hs => ?_⟩
  · rw [List.append_assoc, hglyphs, hglyphs', Option.map_map]
    simp [Function.comp_def]
  · rw [List.append_assoc, hmarks, hmarks', Option.map_map]
    simp [Function.comp_def]

theorem flatMap {f : Char → List Char} {k : Char → List Mark} (h : ∀ c, Writes (f c) (k c))
    (s : List Char) : Writes (s.flatMap f) (s.flatMap k) := by
  induction s with
  | nil => exact nil
  | cons c s ih =>
    rw [List.flatMap_cons, List.flatMap_cons]
    exact (h c).append ih

/-- The pattern that the marks give is the pattern of the text. -/
theorem ofString? {text : String} {p : Nested Pattern} (h : Writes text.toList ms)
    (hp : assemble 0 ⟨none, [], []⟩ [] ms = some p) (hheight : p.height ≤ heightLimit) :
    ofString? text = some p.value := by
  obtain ⟨gs, hglyphs, hmarks⟩ := h
  have hglyphs := hglyphs []
  have hmarks := hmarks []
  rw [List.append_nil] at hglyphs hmarks
  have hgs : glyphs text.toList = some gs := by
    rw [hglyphs, glyphs, Option.map_some, List.append_nil]
  have hms : marks [] 0 gs = some ms := by
    rw [hmarks, marks, List.isEmpty_nil, if_pos rfl, Option.map_some, List.append_nil]
  rw [Pattern.ofString?, hgs, Option.bind_some, hms, Option.bind_some, hp]
  exact if_pos hheight

end Writes

theorem escape_of_mem_quotedMarks (hc : c ∈ quotedMarks) : escape c = some (.escaped c) := by
  have hall : quotedMarks.all (fun d => escape d = some (.escaped d)) = true := by decide
  exact of_decide_eq_true (List.all_eq_true.1 hall c hc)

/-- A quoted character stands for itself. -/
theorem writes_quoteChar (c : Char) : Writes (quoteChar c) [.part (.literal [c]) 0] := by
  unfold quoteChar
  by_cases hc : c ∈ quotedMarks
  · rw [if_pos hc]
    refine ⟨[.escaped c], fun t => ?_, fun hs => rfl⟩
    rw [List.cons_append, List.singleton_append, glyphs, escape_of_mem_quotedMarks hc]
    rfl
  · rw [if_neg hc]
    -- a bare character that is not quoted has no meaning of its own
    have hbackslash : c ≠ '\x5c' := fun h => hc (h ▸ List.mem_cons_self ..)
    refine ⟨[.bare c], fun t => ?_, fun hs => ?_⟩
    · rw [List.singleton_append, glyphs]
      · rfl
      · simp [hbackslash]
      · simp [hbackslash]
    · have hread : readOutside (.bare c) hs = some ⟨[], 0, some (.part (.literal [c]) 0)⟩ := by
        unfold readOutside
        split <;> first | rfl | simp_all [quotedMarks]
      rw [List.singleton_append, marks, hread]
      rfl

theorem writes_textStart : Writes ['^'] [.part (.look .textStart) 0] :=
  ⟨[.bare '^'], fun _ => rfl, fun _ => rfl⟩

theorem writes_openGroup : Writes ['(', '?', ':'] [.openGroup false] :=
  ⟨[.bare '(', .bare '?', .bare ':'], fun t => by simp [glyphs, Function.comp_def],
    fun hs => by simp [marks, readOutside]⟩

theorem writes_closeGroup : Writes [')'] [.closeGroup] := ⟨[.bare ')'], fun _ => rfl, fun _ => rfl⟩

theorem writes_bar : Writes ['|'] [.bar] := ⟨[.bare '|'], fun _ => rfl, fun _ => rfl⟩

/-- A star that no question mark follows. -/
theorem writes_star : Writes ['*', ')'] [.repetition ⟨.anyNumber, false⟩, .closeGroup] :=
  ⟨[.bare '*', .bare ')'], fun t => by simp [glyphs, Function.comp_def],
    fun hs => by simp [marks, readOutside, Function.comp_def]⟩

theorem writes_upperCase :
    Writes ['[', 'A', '-', 'Z', ']'] [.part (.one Postfix.upperCase) 1] := by
  refine ⟨[.bare '[', .bare 'A', .bare '-', .bare 'Z', .bare ']'], fun t => ?_, fun hs => ?_⟩
  · simp [glyphs, Function.comp_def]
  · have hopen (gs : List Glyph) :
        marks [] 0 (.bare '[' :: gs) = (marks [.opened] 0 gs).map ([] ++ ·) := rfl
    have hrange (gs : List Glyph) : marks [.opened] 0 (.bare 'A' :: .bare '-' :: .bare 'Z' :: gs) =
        (marks [⟨false, .body, none, [⟨Postfix.upperCase, 0⟩]⟩] 0 gs).map ([] ++ ·) := rfl
    have hclose (gs : List Glyph) :
        marks [⟨false, .body, none, [⟨Postfix.upperCase, 0⟩]⟩] 0 (.bare ']' :: gs) =
          (marks [] 0 gs).map ([.part (.one Postfix.upperCase) 1] ++ ·) := rfl
    simp only [List.cons_append, List.nil_append] at hopen hrange hclose ⊢
    rw [hopen, hrange, hclose]
    simp [Function.comp_def]

/-! ### Groups -/

section
variable {count : Nat} {g : Group} {outer : List Group} {ms : List Mark}

/-- A character that is read as a literal. -/
def Nested.ofChar (c : Char) : Nested Pattern := ⟨.literal [c], 0⟩

theorem assemble_parts (s : List Char) :
    assemble count g outer (s.flatMap (fun c => [Mark.part (.literal [c]) 0]) ++ ms) =
      assemble count { g with parts := (s.map Nested.ofChar).reverse ++ g.parts } outer ms := by
  induction s generalizing g with
  | nil => rfl
  | cons c s ih =>
    rw [List.flatMap_cons, List.append_assoc, List.singleton_append, assemble, ih]
    simp [Group.push, Nested.ofChar]

end

/-- Alternatives of single characters come after the one that has been read. -/
theorem assemble_bars (s : List Char) (number : Option Nat) (alternatives : List (Nested Pattern))
    (p : Nested Pattern) : ∃ alternatives' p',
    (p' :: alternatives').reverse = (p :: alternatives).reverse ++ s.map Nested.ofChar ∧
      ∀ count outer ms, assemble count ⟨number, alternatives, [p]⟩ outer
          (s.flatMap (fun c => [.bar] ++ [.part (.literal [c]) 0]) ++ ms) =
        assemble count ⟨number, alternatives', [p']⟩ outer ms := by
  induction s generalizing alternatives p with
  | nil => exact ⟨alternatives, p, by simp, fun _ _ _ => rfl⟩
  | cons c s ih =>
    obtain ⟨alternatives', p', horder, hassemble⟩ := ih (p :: alternatives) (Nested.ofChar c)
    refine ⟨alternatives', p', ?_, hassemble⟩
    rw [horder]
    simp

theorem maxHeight_map_ofChar (s : List Char) (n : Nat) :
    ((s.map Nested.ofChar).map (·.height)).foldl max n = n := by
  induction s with
  | nil => rfl
  | cons c s ih => simpa [Nested.ofChar] using ih

/-! ### Texts that are quoted -/

theorem joinLiterals_map (hs : s ≠ []) :
    joinLiterals (s.map fun c => .literal [c]) = [.literal s] := by
  induction s with
  | nil => exact absurd rfl hs
  | cons c s ih =>
    rw [List.map_cons, joinLiterals]
    cases s with
    | nil => rfl
    | cons d s =>
      rw [ih (by simp)]
      rfl

theorem sequence_of_two_le {g : Group} (h : 2 ≤ g.parts.length) :
    g.sequence = ⟨concat (g.parts.reverse.map (·.value)), maxHeight g.parts + 1⟩ := by
  unfold Group.sequence
  split <;> simp_all

theorem sequence_ofChar (hs : s ≠ []) : ∃ height ≤ 1,
    Group.sequence ⟨none, [], (s.map Nested.ofChar).reverse⟩ = ⟨.literal s, height⟩ := by
  match s, hs with
  | [c], _ => exact ⟨0, by omega, rfl⟩
  | c :: d :: s, hs =>
    have hheight : maxHeight ((c :: d :: s).map Nested.ofChar).reverse = 0 := by
      rw [← List.map_reverse]
      exact maxHeight_map_ofChar _ 0
    have hvalues : ((c :: d :: s).map Nested.ofChar).map (·.value) =
        (c :: d :: s).map fun c => .literal [c] := List.map_map ..
    have hparts : ((c :: d :: s).map fun c => Pattern.literal [c]).flatMap parts =
        (c :: d :: s).map fun c => Pattern.literal [c] := by
      rw [List.flatMap_map]
      exact List.map_eq_flatMap.symm
    refine ⟨1, by omega, ?_⟩
    rw [sequence_of_two_le (by simp)]
    simp only [List.reverse_reverse, hvalues, hheight, concat, hparts]
    rw [joinLiterals_map hs]
    rfl

/-- A text that makes a group is read at the start of a text. -/
theorem ofContent?_of_writes {text : String} {ms : List Mark} {p : Nested Pattern}
    (h : Writes (text.toList ++ [')']) ms)
    (hp : ∀ around, assemble 0 ⟨none, [], []⟩ [around] ms = assemble 0 (around.push p) [] [])
    (hheight : p.height < heightLimit) :
    ofContent? text = some (concat [.look .textStart, p.value]) := by
  have hwrites := writes_textStart.append (writes_openGroup.append h)
  have htext : ("^(?:" ++ text ++ ")").toList =
      ['^'] ++ (['(', '?', ':'] ++ (text.toList ++ [')'])) := by
    simp
  have hmax : maxHeight [p, ⟨look .textStart, 0⟩] = p.height := by simp [maxHeight]
  have hassemble : assemble 0 ⟨none, [], []⟩ []
      ([Mark.part (.look .textStart) 0] ++ ([.openGroup false] ++ ms)) =
      some ⟨concat [.look .textStart, p.value], p.height + 1⟩ := by
    rw [← hmax]
    exact hp (Group.push ⟨none, [], []⟩ ⟨.look .textStart, 0⟩)
  rw [ofContent?, Writes.ofString? (htext ▸ hwrites) hassemble hheight]

/-- A quoted text stands for itself. -/
theorem ofContent?_quote {text : String} (h : text.toList ≠ []) :
    ofContent? (quote text) = some (.front (.literal text.toList)) := by
  obtain ⟨height, hheight, hsequence⟩ := sequence_ofChar h
  have hclose : Group.close ⟨none, [], (text.toList.map Nested.ofChar).reverse⟩ =
      ⟨.literal text.toList, height + 1⟩ := by
    have hcontent : Group.content ⟨none, [], (text.toList.map Nested.ofChar).reverse⟩ =
        ⟨.literal text.toList, height⟩ := hsequence
    simp only [Group.close, hcontent]
  have hwrites := (Writes.flatMap writes_quoteChar text.toList).append writes_closeGroup
  rw [← String.toList_ofList (l := text.toList.flatMap quoteChar)] at hwrites
  refine ofContent?_of_writes (p := ⟨.literal text.toList, height + 1⟩) hwrites (fun around => ?_) ?_
  · rw [assemble_parts, List.append_nil, ← hclose]
    rfl
  · simp only [heightLimit]
    omega

/-! ### The rule for words -/

/-- What a word goes on with: a letter or a separator. -/
def wordChoice (separators : List Char) : Pattern :=
  ofBranches (.one Postfix.upperCase) (separators.map fun c => .literal [c])

theorem alternation_wordChoice (separators : List Char) :
    alternation (.one Postfix.upperCase) (separators.map fun c => .literal [c]) =
      wordChoice separators := by
  have hbranches : (one Postfix.upperCase :: separators.map fun c => literal [c]).flatMap branches =
      one Postfix.upperCase :: separators.map fun c => literal [c] := by
    rw [List.flatMap_cons, List.flatMap_map]
    exact congrArg (one Postfix.upperCase :: ·) List.map_eq_flatMap.symm
  -- a single part has nothing in common with others
  have hshared : sharedParts (.one Postfix.upperCase) (separators.map fun c => .literal [c]) = [] :=
    rfl
  have hchoice : choice (.one Postfix.upperCase) (separators.map fun c => .literal [c]) =
      wordChoice separators := by
    unfold choice
    dsimp only
    rw [hbranches]
    cases separators <;> rfl
  unfold alternation
  rw [hbranches]
  dsimp only
  rw [hshared, List.isEmpty_nil, if_pos rfl, hchoice]

theorem content_wordChoice {separators : List Char} {alternatives : List (Nested Pattern)}
    {p : Nested Pattern} (h : (p :: alternatives).reverse =
      ⟨.one Postfix.upperCase, 1⟩ :: separators.map Nested.ofChar) :
    ∃ height ≤ 2, Group.content ⟨none, alternatives, [p]⟩ = ⟨wordChoice separators, height⟩ := by
  have hsequence : Group.sequence ⟨none, alternatives, [p]⟩ = p := rfl
  unfold Group.content
  rw [hsequence, h]
  cases separators with
  | nil => exact ⟨1, by omega, rfl⟩
  | cons c s =>
    refine ⟨2, by omega, ?_⟩
    have hvalues : ((c :: s).map Nested.ofChar).map (·.value) = (c :: s).map fun c => .literal [c] :=
      List.map_map ..
    have hheight : maxHeight (⟨.one Postfix.upperCase, 1⟩ :: (c :: s).map Nested.ofChar) = 1 :=
      maxHeight_map_ofChar (c :: s) 1
    show Nested.mk (alternation _ (((c :: s).map Nested.ofChar).map (·.value))) (maxHeight _ + 1) = _
    rw [hheight, hvalues, alternation_wordChoice]

theorem toList_wordText (separators : List Char) : (Postfix.wordText separators).toList ++ [')'] =
    ['[', 'A', '-', 'Z', ']'] ++ (['(', '?', ':'] ++ (['[', 'A', '-', 'Z', ']'] ++
      (separators.flatMap (fun c => ['|'] ++ quoteChar c) ++ ([')'] ++ ['*', ')'])))) := by
  have hintercalate : ∀ first : List Char,
      ['|'].intercalate (first :: separators.map quoteChar) =
        first ++ separators.flatMap fun c => ['|'] ++ quoteChar c := by
    induction separators with
    | nil => simp
    | cons c s ih =>
      intro first
      rw [List.map_cons, List.intercalate_cons_cons, ih]
      simp
  have hquote : separators.map (fun c => (quote c.toString).toList) = separators.map quoteChar :=
    List.map_congr_left fun c _ => by simp [quote]
  simp only [Postfix.wordText, String.toList_append, String.toList_intercalate, List.map_cons,
    List.map_map, Function.comp_def, hquote]
  rw [show "|".toList = ['|'] from rfl, hintercalate]
  simp

theorem ofContent?_wordText (separators : List Char) :
    ofContent? (Postfix.wordText separators) =
      some (.front (.seq (.one Postfix.upperCase) (.star (wordChoice separators)))) := by
  have hwrites := writes_upperCase.append (writes_openGroup.append (writes_upperCase.append
    ((Writes.flatMap (fun c => writes_bar.append (writes_quoteChar c)) separators).append
      (writes_closeGroup.append writes_star))))
  rw [← toList_wordText] at hwrites
  -- the group of the choice is read behind the first letter, and the star repeats it
  let letter : Nested Pattern := ⟨.one Postfix.upperCase, 1⟩
  obtain ⟨alternatives, last, horder, hbars⟩ := assemble_bars separators none [] letter
  obtain ⟨height, hheight, hcontent⟩ := content_wordChoice horder
  have hchoice : Group.close ⟨none, alternatives, [last]⟩ = ⟨wordChoice separators, height + 1⟩ := by
    simp only [Group.close, hcontent]
  have hmax : maxHeight [⟨star (wordChoice separators), height + 2⟩, letter] = height + 2 := by
    simp [maxHeight, letter]
  let word : Nested Pattern := ⟨.seq (.one Postfix.upperCase) (.star (wordChoice separators)),
    maxHeight [⟨star (wordChoice separators), height + 2⟩, letter] + 2⟩
  refine ofContent?_of_writes (p := word) hwrites (fun around => ?_) ?_
  · have hstart := hbars 0 [⟨none, [], [letter]⟩, around]
      ([.closeGroup] ++ [.repetition ⟨.anyNumber, false⟩, .closeGroup])
    have hend : assemble 0 (Group.push ⟨none, [], [letter]⟩ ⟨wordChoice separators, height + 1⟩) [around]
        [.repetition ⟨.anyNumber, false⟩, .closeGroup] = assemble 0 (around.push word) [] [] := rfl
    rw [← hchoice] at hend
    exact hstart.trans hend
  · show maxHeight _ + 2 < heightLimit
    rw [hmax, heightLimit]
    omega

end Pattern
end Predictive
