import Predictive.Grammar.Text
import Predictive.Postfix.Kind
import Predictive.Proofs.Cutting
import Predictive.Proofs.Rebuilding

/-!
# Grammars that are written and read again

A grammar that rules have made is written with its own rules, one nonterminal a line. Where its names can
be told apart in the writing (`Writable`), reading the lines gives the rules back (`readLines_lineContent`)
and so the grammar (`ofText_toText`).

The left-hand side is read up to the first arrow and the rest is cut at bars and blanks, so the two sides
ask for different things: a bar is welcome in a name that is never used on the right, unless the name
begins with it. What can be read at all is read from such names (`writable_of_isReadable`).
-/

namespace Predictive.Grammar
open Text

variable {T : Type} [Terminal T] {g : Grammar T}

/-- A name that can stand before an arrow. -/
@[mk_iff]
structure IsLeftName (name : String) : Prop where
  isRun : IsRun name.toList
  noComment : '#' ∉ name.toList
  noArrow : ¬ ['-', '>'] <:+: name.toList
  noBar : name.toList.head? ≠ some '|'

/-- A word that can stand behind an arrow. -/
structure IsWord (w : List Char) : Prop where
  isRun : IsRun w
  noComment : '#' ∉ w
  noBar : '|' ∉ w

/-- A name that can stand behind an arrow, where epsilon has two words of its own. -/
structure IsRightName (name : String) : Prop where
  isWord : IsWord name.toList
  notEpsilon : name ≠ "EPSILON" ∧ name ≠ "ε"

/-- The names of the grammar are read back as they are written. -/
structure Writable (g : Grammar T) : Prop where
  left : ∀ x, IsLeftName (g.name x)
  right : ∀ x, ∀ u ∈ g.alternativesOf x, ∀ s ∈ u, s ≠ .epsilon → IsRightName (g.symbolName s)

/-! ### Lines as they are written -/

def wordsOf (g : Grammar T) (u : g.Form) : List (List Char) := u.map fun s => (g.symbolWord s).toList

def barred (words : List (List (List Char))) : List Char :=
  [' ', '|', ' '].intercalate (words.map [' '].intercalate)

/-- The line that defines `x`, without its end. -/
def lineContent (g : Grammar T) (x : g.Nonterminal) : List Char :=
  (g.name x).toList ++ ' ' :: '-' :: '>' :: ' ' :: barred ((g.alternativesOf x).map g.wordsOf)

theorem toList_lineOf (x : g.Nonterminal) : (g.lineOf x).toList = g.lineContent x ++ ['\n'] := by
  simp only [lineOf, lineContent, barred, wordsOf, String.toList_append, String.toList_intercalate,
    List.map_map, Function.comp_def, List.append_assoc]
  rfl

theorem toList_toText (g : Grammar T) :
    g.toText.toList = (g.nonterminals.map g.lineContent).flatMap (· ++ ['\n']) := by
  rw [toText, String.toList_join, List.flatMap_map, List.flatMap_map]
  exact List.flatMap_congr fun x _ => toList_lineOf x

/-! ### Names that can be written -/

theorem IsRightName.isWord_symbolWord {u : g.Form}
    (h : ∀ s ∈ u, s ≠ .epsilon → IsRightName (g.symbolName s)) : ∀ w ∈ g.wordsOf u, IsWord w := by
  intro w hw
  obtain ⟨s, hs, rfl⟩ := List.mem_map.1 hw
  cases s with
  | epsilon =>
    have hblank : "EPSILON".toList.all (isBlank · = false) = true := by decide
    have hrun : IsRun "EPSILON".toList := ⟨by decide, by simpa using hblank⟩
    have hword : IsWord "EPSILON".toList := ⟨hrun, by decide, by decide⟩
    exact hword
  | terminal t => exact (h _ hs (by simp)).isWord
  | nonterminal x => exact (h _ hs (by simp)).isWord

theorem symbolOfWord_symbolWord (hname : ∀ t : T, Terminal.ofName? (Terminal.name t) = some t)
    (hg : g.WellFormed) {s : Symbol T g.Nonterminal} (hs : s ≠ .epsilon → IsRightName (g.symbolName s)) :
    symbolOfWord (g.symbolWord s) = s.rename g.name := by
  cases s with
  | epsilon => rfl
  | terminal t =>
    have hword : Terminal.name t ≠ "EPSILON" ∧ Terminal.name t ≠ "ε" := (hs (by simp)).notEpsilon
    show symbolOfWord (Terminal.name t) = .terminal t
    rw [symbolOfWord, if_neg (not_or.2 hword), hname]
  | nonterminal x =>
    have hword : g.name x ≠ "EPSILON" ∧ g.name x ≠ "ε" := (hs (by simp)).notEpsilon
    show symbolOfWord (g.name x) = .nonterminal (g.name x)
    rw [symbolOfWord, if_neg (not_or.2 hword), hg.ofName?]

/-! ### Lines as they are read -/

section
variable {left : String} {alternatives : List (List (List Char))}

/-- The words `u` after `left`. -/
def readRule (left : String) (u : List (List Char)) : Rule T :=
  ⟨left, u.map (symbolOfWord <| String.ofList ·)⟩

theorem readAlternatives_cons {piece : List Char} {pieces : List (List Char)} {u : List (List Char)}
    {rules : List (Rule T)} (hu : words piece = u) (hne : u ≠ [])
    (h : readAlternatives left pieces = .ok rules) :
    readAlternatives left (piece :: pieces) = .ok (readRule left u :: rules) := by
  obtain ⟨w, ws, rfl⟩ := List.exists_cons_of_ne_nil hne
  rw [readAlternatives, hu]
  dsimp only
  rw [h]
  rfl

theorem readAlternatives_barred (hne : alternatives ≠ [])
    (h : ∀ u ∈ alternatives, u ≠ [] ∧ ∀ w ∈ u, IsWord w) :
    readAlternatives left (split (· == '|') (' ' :: barred alternatives)) =
      .ok (alternatives.map (readRule (T := T) left)) := by
  induction alternatives with
  | nil => exact absurd rfl hne
  | cons u us ih =>
    obtain ⟨hu, hwords⟩ := h u (List.mem_cons_self ..)
    have hruns : ∀ w ∈ u, IsRun w := fun w hw => (hwords w hw).isRun
    have hbars : ∀ c ∈ [' '].intercalate u, (c == '|') = false := by
      intro c hc
      rw [beq_eq_false_iff_ne]
      rintro rfl
      rcases mem_intercalate hc with hc | ⟨w, hw, hc⟩
      · simp at hc
      · exact (hwords w hw).noBar hc
    cases us with
    | nil =>
      have hpiece : split (· == '|') (' ' :: barred [u]) = [' ' :: [' '].intercalate u] := by
        rw [barred, List.map_singleton, List.intercalate_singleton]
        exact split_eq_singleton fun c hc => (List.mem_cons.1 hc).elim (fun h => h ▸ rfl) (hbars c)
      rw [hpiece]
      refine readAlternatives_cons ?_ hu rfl
      rw [words_cons (by rfl), words_intercalate hruns]
    | cons u' us =>
      -- the bar has a blank before it and behind it, which no word takes
      have hrest := ih (by simp) fun v hv => h v (List.mem_cons_of_mem _ hv)
      have hpieces : split (· == '|') (' ' :: barred (u :: u' :: us)) =
          (' ' :: ([' '].intercalate u ++ [' '])) :: split (· == '|') (' ' :: barred (u' :: us)) := by
        have htext : ' ' :: barred (u :: u' :: us) =
            (' ' :: ([' '].intercalate u ++ [' '])) ++ '|' :: (' ' :: barred (u' :: us)) := by
          simp [barred, List.intercalate_cons_cons]
        have hfirst : split (· == '|') (' ' :: ([' '].intercalate u ++ [' '])) =
            [' ' :: ([' '].intercalate u ++ [' '])] := by
          refine split_eq_singleton fun c hc => ?_
          rcases List.mem_cons.1 hc with rfl | hc
          · rfl
          · rcases List.mem_append.1 hc with hc | hc
            · exact hbars c hc
            · exact List.mem_singleton.1 hc ▸ rfl
        rw [htext, split_append_cons (by rfl), hfirst]
        rfl
      rw [hpieces]
      refine readAlternatives_cons ?_ hu hrest
      rw [words_cons (by rfl), words_append_cons (by rfl), words_intercalate hruns]
      exact List.append_nil u

end

theorem isBlank_of_isLeftName {name : String} (h : IsLeftName name) {s : List Char} {c : Char}
    (hc : (name.toList ++ s).head? = some c) : isBlank c = false := by
  rw [List.head?_append_of_ne_nil _ h.isRun.1] at hc
  exact h.isRun.2 c (List.mem_of_mem_head? hc)

theorem readLeft_append {name : String} (h : IsLeftName name) (previous : Option String) (s : List Char) :
    readLeft previous (name.toList ++ ' ' :: '-' :: '>' :: s) = .ok (name, s) := by
  have htrim : trim (name.toList ++ [' ']) = name.toList := trim_append_blank h.isRun (by rfl)
  have hrun : ¬ (name.toList.isEmpty || name.toList.any isBlank) = true :=
    fun hbad => isEmpty_or_any_isBlank_iff.1 hbad h.isRun
  unfold readLeft
  split
  -- the line does not go on with an earlier left-hand side, since its name begins it
  · next rest heq =>
    have hhead : (name.toList ++ ' ' :: '-' :: '>' :: s).head? = some '|' := by rw [heq]; rfl
    rw [List.head?_append_of_ne_nil _ h.isRun.1] at hhead
    exact absurd hhead h.noBar
  · have harrow : ¬ ['-', '>'] <:+: name.toList ++ [' '] := fun hinside =>
      (arrow_append_cons (by decide) (by decide) hinside).elim h.noArrow (by simp)
    have hline : name.toList ++ ' ' :: '-' :: '>' :: s = (name.toList ++ [' ']) ++ '-' :: '>' :: s := by simp
    rw [hline, splitArrow_append harrow]
    dsimp only
    rw [htrim, if_neg hrun, String.ofList_toList]

section
variable (hname : ∀ t : T, Terminal.ofName? (Terminal.name t) = some t) (hg : g.WellFormed)
  (hwritable : g.Writable)
include hg hwritable

theorem isWord_of_mem_wordsOf {x : g.Nonterminal} {u : g.Form} (hu : u ∈ g.alternativesOf x) :
    g.wordsOf u ≠ [] ∧ ∀ w ∈ g.wordsOf u, IsWord w := by
  refine ⟨fun hnil => ?_, IsRightName.isWord_symbolWord (hwritable.right x u hu)⟩
  have hne : u = [] := List.map_eq_nil_iff.1 hnil
  rcases hg.isRight x u hu with h | h
  · rw [hne] at h
    cases h
  · exact h.1 hne

/-- Where the characters of a line come from. -/
theorem mem_lineContent {x : g.Nonterminal} {c : Char} (hc : c ∈ g.lineContent x) :
    c ∈ (g.name x).toList ∨ c ∈ [' ', '-', '>', '|'] ∨ ∃ w, IsWord w ∧ c ∈ w := by
  have hline : g.lineContent x =
      (g.name x).toList ++ ([' ', '-', '>', ' '] ++ barred ((g.alternativesOf x).map g.wordsOf)) := rfl
  rw [hline, List.mem_append, List.mem_append] at hc
  rcases hc with hc | hc | hc
  · exact .inl hc
  · exact .inr (.inl ((by decide : [' ', '-', '>', ' '] ⊆ [' ', '-', '>', '|']) hc))
  · refine .inr ?_
    rcases mem_intercalate hc with hc | ⟨s, hs, hc⟩
    · exact .inl ((by decide : [' ', '|', ' '] ⊆ [' ', '-', '>', '|']) hc)
    · obtain ⟨words, hwords, rfl⟩ := List.mem_map.1 hs
      obtain ⟨u, hu, rfl⟩ := List.mem_map.1 hwords
      rcases mem_intercalate hc with hc | ⟨w, hw, hc⟩
      · exact .inl ((by decide : [' '] ⊆ [' ', '-', '>', '|']) hc)
      · exact .inr ⟨w, (isWord_of_mem_wordsOf hg hwritable hu).2 w hw, hc⟩

theorem endsInWord_lineContent (x : g.Nonterminal) : EndsInWord (g.lineContent x) := by
  have hbarred : EndsInWord (barred ((g.alternativesOf x).map g.wordsOf)) := by
    refine EndsInWord.intercalate (by simpa using hg.inhabited x) fun s hs => ?_
    obtain ⟨words, hwords, rfl⟩ := List.mem_map.1 hs
    obtain ⟨u, hu, rfl⟩ := List.mem_map.1 hwords
    obtain ⟨hne, hwords⟩ := isWord_of_mem_wordsOf hg hwritable hu
    exact EndsInWord.intercalate hne fun w hw => (hwords w hw).isRun.endsInWord
  have hline : g.lineContent x = ((g.name x).toList ++ [' ', '-', '>', ' ']) ++
      barred ((g.alternativesOf x).map g.wordsOf) := by
    simp [lineContent]
  rw [hline]
  exact hbarred.append

theorem content_lineContent (x : g.Nonterminal) : content (g.lineContent x) = g.lineContent x := by
  have hleft := hwritable.left x
  refine content_eq_self (fun hc => ?_) (fun c hc => isBlank_of_isLeftName hleft hc) fun c hc => ?_
  · rcases mem_lineContent hg hwritable hc with hc | hc | ⟨w, hw, hc⟩
    · exact hleft.noComment hc
    · simp at hc
    · exact hw.noComment hc
  · obtain ⟨d, hlast, hd⟩ := endsInWord_lineContent hg hwritable x
    rw [hlast] at hc
    exact Option.some.inj hc ▸ hd

theorem lines_toText : lines g.toText.toList = g.nonterminals.map g.lineContent := by
  rw [toList_toText]
  refine lines_flatMap fun line hline => ?_
  obtain ⟨x, -, rfl⟩ := List.mem_map.1 hline
  refine ⟨fun hc => ?_, fun hlast => ?_⟩
  · rcases mem_lineContent hg hwritable hc with hc | hc | ⟨w, hw, hc⟩
    · have hblank := (hwritable.left x).isRun.2 _ hc
      exact absurd hblank (by decide)
    · simp at hc
    · have hblank := hw.isRun.2 _ hc
      exact absurd hblank (by decide)
  · obtain ⟨d, hd, hblank⟩ := endsInWord_lineContent hg hwritable x
    rw [hlast] at hd
    rw [← Option.some.inj hd] at hblank
    exact absurd hblank (by decide)

include hname

theorem readLine_lineContent (previous : Option String) (x : g.Nonterminal) :
    readLine previous (g.lineContent x) = .ok (g.name x, g.rulesOf x) := by
  have hrules : ((g.alternativesOf x).map g.wordsOf).map (readRule (g.name x)) = g.rulesOf x := by
    rw [List.map_map]
    refine List.map_congr_left fun u hu => ?_
    have hsymbols : (g.wordsOf u).map (symbolOfWord <| String.ofList ·) =
        u.map (Symbol.rename (T := T) g.name) := by
      rw [wordsOf, List.map_map]
      refine List.map_congr_left fun s hs => ?_
      rw [Function.comp_apply, String.ofList_toList]
      exact symbolOfWord_symbolWord hname hg (hwritable.right x u hu s hs)
    exact congrArg (Rule.mk (g.name x)) hsymbols
  have halternatives : readAlternatives (g.name x) (split (· == '|')
      (' ' :: barred ((g.alternativesOf x).map g.wordsOf))) = .ok (g.rulesOf x) := by
    rw [readAlternatives_barred (by simpa using hg.inhabited x), hrules]
    intro words hwords
    obtain ⟨u, hu, rfl⟩ := List.mem_map.1 hwords
    exact isWord_of_mem_wordsOf hg hwritable hu
  rw [readLine, lineContent, readLeft_append (hwritable.left x)]
  dsimp only
  rw [halternatives]

theorem readLines_lineContent (number : Nat) (previous : Option String) (xs : List g.Nonterminal) :
    readLines number previous (xs.map g.lineContent) = .ok (xs.flatMap g.rulesOf) := by
  induction xs generalizing number previous with
  | nil => rfl
  | cons x xs ih =>
    have hcontent := content_lineContent hg hwritable x
    have hne : g.lineContent x ≠ [] := List.append_ne_nil_of_left_ne_nil (hwritable.left x).isRun.1 _
    have hline := readLine_lineContent hname hg hwritable previous x
    obtain ⟨c, s, hcons⟩ := List.exists_cons_of_ne_nil hne
    rw [hcons] at hcontent hline
    rw [List.map_cons, readLines, hcons, hcontent]
    dsimp only
    rw [hline]
    dsimp only
    rw [ih]
    rfl

end

omit [Terminal T] in
theorem nonterminals_eq_cons (h : (g.start : Nat) = 0) : ∃ xs, g.nonterminals = g.start :: xs := by
  obtain ⟨n, names, alternatives, start⟩ := g
  cases n with
  | zero => exact start.elim0
  | succ n =>
    obtain rfl : start = 0 := Fin.ext h
    exact ⟨_, List.finRange_succ⟩

/-- A grammar whose first nonterminal is the start symbol is read back. -/
theorem ofText_toText_of_writable (hname : ∀ t : T, Terminal.ofName? (Terminal.name t) = some t)
    (hg : g.WellFormed) (hwritable : g.Writable) (hstart : (g.start : Nat) = 0) :
    ofText g.toText = .ok g := by
  have hread : readLines 1 none (lines g.toText.toList) = .ok g.rules := by
    rw [lines_toText hg hwritable]
    exact readLines_lineContent hname hg hwritable 1 none g.nonterminals
  obtain ⟨xs, hxs⟩ := nonterminals_eq_cons hstart
  obtain ⟨u, us, hu⟩ := List.exists_cons_of_ne_nil (hg.inhabited g.start)
  have hfirst : ∃ rest, g.rules = g.ruleOf g.start u :: rest := by
    rw [rules, hxs, List.flatMap_cons, rulesOf, hu]
    exact ⟨_, rfl⟩
  obtain ⟨rest, hrules⟩ := hfirst
  have hmade := hg.ofRules_rules
  rw [hrules] at hread hmade
  rw [ofText, hread]
  exact hmade

theorem val_eq_zero_of_get {names rest : List String} {name : String} (hnames : names.Nodup)
    (hcons : names = name :: rest) {x : Fin names.length} (hx : names.get x = name) : (x : Nat) = 0 := by
  subst hcons
  have hzero : x = ⟨0, Nat.succ_pos _⟩ := hnames.get_inj_iff.1 hx
  rw [hzero]

theorem start_of_ofRules {r : Rule T} {rules : List (Rule T)} (h : ofRules r.left (r :: rules) = .ok g) :
    (g.start : Nat) = 0 := by
  obtain ⟨-, x, resolved, hx, -, -, -, rfl⟩ := exists_of_ofRules h
  exact val_eq_zero_of_get (nodup_eraseDups _) List.eraseDups_cons hx

/-! ### Names that are read -/

/-- What reading makes of a word. -/
def IsSpelled : Symbol T String → Prop
  | .terminal t => ∃ name, IsRightName name ∧ Terminal.ofName? name = some t
  | .nonterminal name => IsRightName name
  | .epsilon => True

theorem isSpelled_symbolOfWord {w : List Char} (h : IsWord w) :
    IsSpelled (symbolOfWord (String.ofList w) : Symbol T String) := by
  unfold symbolOfWord
  split
  · trivial
  · next hepsilon =>
    have hright : IsRightName (String.ofList w) :=
      ⟨by rwa [String.toList_ofList], not_or.1 hepsilon⟩
    split
    · next t ht => exact ⟨_, hright, ht⟩
    · exact hright

/-- The left-hand side and the names on the right of a rule that has been read. -/
structure IsReadable (r : Rule T) : Prop where
  left : IsLeftName r.left
  right : ∀ s ∈ r.right, IsSpelled s

section
variable {left : String}

theorem isReadable_of_readAlternatives {pieces : List (List Char)} {rules : List (Rule T)}
    (h : readAlternatives left pieces = .ok rules) (hleft : IsLeftName left)
    (hpieces : ∀ piece ∈ pieces, '#' ∉ piece ∧ '|' ∉ piece) : ∀ r ∈ rules, IsReadable r := by
  induction pieces generalizing rules with
  | nil =>
    cases h
    simp
  | cons piece pieces ih =>
    unfold readAlternatives at h
    split at h
    · cases h
    · next words _ =>
      split at h
      · cases h
      · next more hmore =>
        cases h
        intro r hr
        rcases List.mem_cons.1 hr with rfl | hr
        · refine ⟨hleft, fun s hs => ?_⟩
          obtain ⟨w, hw, rfl⟩ := List.mem_map.1 hs
          have hwords := hpieces piece (List.mem_cons_self ..)
          have hisWord : IsWord w := ⟨isRun_of_mem_words hw, fun hc => hwords.1 (mem_of_mem_words hw hc),
            fun hc => hwords.2 (mem_of_mem_words hw hc)⟩
          exact isSpelled_symbolOfWord hisWord
        · exact ih hmore (fun p hp => hpieces p (List.mem_cons_of_mem _ hp)) r hr

end

/-- The word before the first arrow of a line that does not begin with a bar. -/
theorem isLeftName_trim {line before rest : List Char}
    (hline : content line = before ++ '-' :: '>' :: rest) (harrow : ¬ ['-', '>'] <:+: before)
    (hbar : ∀ s, content line ≠ '|' :: s) (hrun : IsRun (trim before)) :
    IsLeftName (String.ofList (trim before)) := by
  have hinside := isInfix_trim before
  have hnoComment : '#' ∉ trim before := by
    intro hc
    refine not_mem_content line ?_
    rw [hline]
    exact List.mem_append_left _ (hinside.subset hc)
  have hnoBar : (trim before).head? ≠ some '|' := by
    intro hhead
    have hdrop := head?_trim hhead
    cases before with
    | nil => simp at hdrop
    | cons c before =>
      -- the first character of what is left of a line is not blank, so nothing is cut off
      have hblank : isBlank c = false := isBlank_of_head?_trim (by rw [← content, hline]; rfl)
      rw [List.dropWhile_cons_of_neg (by simp [hblank])] at hdrop
      obtain rfl := Option.some.inj hdrop
      exact hbar _ hline
  rw [isLeftName_iff, String.toList_ofList]
  exact ⟨hrun, hnoComment, fun h => harrow (h.trans hinside), hnoBar⟩

theorem isLeftName_of_readLeft {previous : Option String} {line rest : List Char} {left : String}
    (h : readLeft previous (content line) = .ok (left, rest))
    (hprevious : ∀ name, previous = some name → IsLeftName name) : IsLeftName left ∧ '#' ∉ rest := by
  have hcomment := not_mem_content line
  unfold readLeft at h
  split at h
  · next rest' heq =>
    split at h
    · next name =>
      cases h
      rw [heq] at hcomment
      exact ⟨hprevious _ rfl, fun hc => hcomment (List.mem_cons_of_mem _ hc)⟩
    · cases h
  · next hbar =>
    split at h
    · cases h
    · next before rest' hcut =>
      obtain ⟨hline, harrow⟩ := splitArrow_eq_some hcut
      dsimp only at h
      split at h
      · cases h
      · next hrun =>
        cases h
        have hisRun : IsRun (trim before) := not_not.1 (mt isEmpty_or_any_isBlank_iff.2 hrun)
        refine ⟨isLeftName_trim hline harrow hbar hisRun, fun hc => hcomment ?_⟩
        rw [hline]
        exact List.mem_append_right _ (List.mem_cons_of_mem _ (List.mem_cons_of_mem _ hc))

theorem isReadable_of_readLine {previous : Option String} {line : List Char} {left : String}
    {rules : List (Rule T)} (h : readLine previous (content line) = .ok (left, rules))
    (hprevious : ∀ name, previous = some name → IsLeftName name) :
    IsLeftName left ∧ ∀ r ∈ rules, IsReadable r := by
  unfold readLine at h
  split at h
  · cases h
  · next left' rest hleft =>
    split at h
    · cases h
    · next rules' hrules =>
      cases h
      obtain ⟨hname, hcomment⟩ := isLeftName_of_readLeft hleft hprevious
      refine ⟨hname, isReadable_of_readAlternatives hrules hname fun piece hpiece => ⟨?_, ?_⟩⟩
      · exact fun hc => hcomment (mem_of_mem_split hpiece hc).1
      · exact fun hc => absurd (mem_of_mem_split hpiece hc).2 (by simp)

/-- Every line goes on with a left-hand side that has been read before, or reads one. -/
theorem isReadable_of_readLines {number : Nat} {previous : Option String} {ls : List (List Char)}
    {rules : List (Rule T)} (h : readLines number previous ls = .ok rules)
    (hprevious : ∀ name, previous = some name → IsLeftName name) : ∀ r ∈ rules, IsReadable r := by
  induction ls generalizing number previous rules with
  | nil =>
    cases h
    simp
  | cons line ls ih =>
    unfold readLines at h
    split at h
    · exact ih h hprevious
    · split at h
      · cases h
      · next left found hfound =>
        split at h
        · cases h
        · next more hmore =>
          cases h
          obtain ⟨hleft, hreadable⟩ := isReadable_of_readLine hfound hprevious
          intro r hr
          rcases List.mem_append.1 hr with hr | hr
          · exact hreadable r hr
          · exact ih hmore (fun name hname => Option.some.inj hname ▸ hleft) r hr

/-- A grammar that has been read can be written. -/
theorem writable_of_isReadable
    (hname : ∀ name (t : T), Terminal.ofName? name = some t → Terminal.name t = name)
    {start : String} {rules : List (Rule T)} (h : ofRules start rules = .ok g)
    (hrules : ∀ r ∈ rules, IsReadable r) : g.Writable := by
  refine ⟨fun x => ?_, fun x u hu s hs hepsilon => ?_⟩
  · obtain ⟨u, us, hu⟩ := List.exists_cons_of_ne_nil ((wellFormed_of_ofRules h).inhabited x)
    have hmem : u ∈ g.alternativesOf x := hu ▸ List.mem_cons_self ..
    obtain ⟨r, hr, hleft, -⟩ := exists_rule_of_mem h hmem
    exact hleft ▸ (hrules r hr).left
  · obtain ⟨r, hr, -, hright⟩ := exists_rule_of_mem h hu
    rcases hright with hright | hright
    · rw [hright] at hs
      exact absurd (List.mem_singleton.1 hs) hepsilon
    · have hspelled := (hrules r hr).right (s.rename g.name) (hright ▸ List.mem_map.2 ⟨s, hs, rfl⟩)
      cases s with
      | epsilon => exact absurd rfl hepsilon
      | nonterminal y => exact hspelled
      | terminal t =>
        obtain ⟨name, hright, ht⟩ := hspelled
        show IsRightName (Terminal.name t)
        rw [hname name t ht]
        exact hright

/-- Writing and reading go together. A grammar of rules that begin with the start symbol is read back as
it was, numbers and order included, if its names can be written; and a grammar that has been read is one
of these. -/
theorem ofText_toText (hname : ∀ t : T, Terminal.ofName? (Terminal.name t) = some t) :
    (∀ (r : Rule T) (rules : List (Rule T)) (g : Grammar T), ofRules r.left (r :: rules) = .ok g →
      g.Writable → ofText g.toText = .ok g) ∧
    ((∀ name (t : T), Terminal.ofName? name = some t → Terminal.name t = name) →
      ∀ (text : String) (g : Grammar T), ofText text = .ok g →
        (∃ (r : Rule T) (rules : List (Rule T)), ofRules r.left (r :: rules) = .ok g) ∧ g.Writable ∧
          ofText g.toText = .ok g) := by
  have hback : ∀ (r : Rule T) (rules : List (Rule T)) (g : Grammar T),
      ofRules r.left (r :: rules) = .ok g → g.Writable → ofText g.toText = .ok g := fun r rules g h hg =>
    ofText_toText_of_writable hname (wellFormed_of_ofRules h) hg (start_of_ofRules h)
  refine ⟨hback, fun hinverse text g h => ?_⟩
  unfold ofText at h
  split at h
  · cases h
  · cases h
  · next r rules hread =>
    have hreadable := isReadable_of_readLines hread (by simp)
    have hwritable := writable_of_isReadable hinverse h hreadable
    exact ⟨⟨r, rules, h⟩, hwritable, hback r rules g h hwritable⟩

/-! ### A grammar with scattered rules

Its rules come in no order, `EPSILON` is a left-hand side, one name has a bar in it, and one is half an
arrow. -/

namespace Scattered
open Postfix (Kind)

def text : String :=
  "S -> NUMBER a- # the first rule\n\nEPSILON->S RES\n  a- -> NOT\n|EPSILON\nx|y -> FOR\n" ++
  "> -> λ IFELSE\nS -> RES\nλ->> NUMBER"

def grammar : Grammar Kind where
  size := 6
  names := #v["S", "EPSILON", "a-", "x|y", ">", "λ"]
  alternatives := #v[[[.terminal .number, .nonterminal 2], [.terminal .res]],
    [[.nonterminal 0, .terminal .res]], [[.terminal .not], [.epsilon]], [[.terminal .forLoop]],
    [[.nonterminal 5, .terminal .ifElse]], [[.nonterminal 4, .terminal .number]]]
  start := 0

theorem ofText_text : ofText text = .ok grammar := by decide +kernel

example : grammar.toText =
    "S -> NUMBER a- | RES\nEPSILON -> S RES\na- -> NOT | EPSILON\nx|y -> FOR\n" ++
    "> -> λ IFELSE\nλ -> > NUMBER\n" := by decide

theorem ofName?_name : ∀ t : Kind, Terminal.ofName? (Terminal.name t) = some t := by
  intro t
  cases t <;> decide

theorem name_of_ofName? (name : String) (t : Kind) (h : Terminal.ofName? name = some t) :
    Terminal.name t = name := by
  have hfind : Kind.all.find? (·.name = name) = some t := h
  have hfound := List.find?_some hfind
  exact of_decide_eq_true hfound

end Scattered

theorem ofText_toText_scattered :
    (∀ t : Postfix.Kind, Terminal.ofName? (Terminal.name t) = some t) ∧
    (∀ name (t : Postfix.Kind), Terminal.ofName? name = some t → Terminal.name t = name) ∧
    ofText Scattered.text = .ok Scattered.grammar ∧ Scattered.grammar.Writable ∧
    ofText Scattered.grammar.toText = .ok Scattered.grammar := by
  have hboth := ofText_toText Scattered.ofName?_name
  obtain ⟨⟨r, rules, hrules⟩, hwritable, -⟩ :=
    hboth.2 Scattered.name_of_ofName? _ _ Scattered.ofText_text
  exact ⟨Scattered.ofName?_name, Scattered.name_of_ofName?, Scattered.ofText_text, hwritable,
    hboth.1 r rules _ hrules hwritable⟩

end Predictive.Grammar
