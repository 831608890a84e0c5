import Predictive.Grammar.Layout
import Predictive.Proofs.RoundTrip

/-!
# Reading a written grammar apart from its layout

What is read from a line depends on the words in it (`Saying`): on the words before the first arrow, if the
line does not begin with a bar, and on the words between the bars behind it. Reading a text is reading what
its lines say, one after the other (`toOption_readLines`).

Most edits leave alone what a line says. The others leave alone what is read (`Alike`): a line that is
broken before a bar says in two lines what it said in one, and a line that goes on with a rule says the same
as one more rule, since all lines between the two go on with that rule as well.
-/

namespace Predictive.Grammar
open Text Layout

variable {T : Type} [Terminal T] {s t u v r r' left : List Char}

/-! ### What a line says -/

/-- The words of each alternative. -/
def alternativesIn (s : List Char) : List (List (List Char)) := (split (· == '|') s).map words

/-- What a line says, with the words that it says it in. -/
inductive Saying
  | nothing
  | more (alternatives : List (List (List Char)))
  | rule (left : List (List Char)) (alternatives : List (List (List Char)))
  | nonsense

/-- What a line without comments says. -/
def saying (s : List Char) : Saying :=
  match s.dropWhile isBlank with
  | [] => .nothing
  | '|' :: rest => .more (alternativesIn rest)
  | s =>
    match splitArrow s with
    | none => .nonsense
    | some (before, rest) => .rule (words before) (alternativesIn rest)

def sayingOf (line : List Char) : Saying := saying (uncommented line)

theorem alternativesIn_bar (s t : List Char) :
    alternativesIn (s ++ '|' :: t) = alternativesIn s ++ alternativesIn t := by
  rw [alternativesIn, split_append_cons (by rfl), List.map_append]
  rfl

theorem bar_of_blanks (hr : Blanks r) : ∀ c ∈ r, (c == '|') = false := by
  intro c hc
  rw [beq_eq_false_iff_ne]
  rintro rfl
  exact absurd (hr _ hc) (by decide)

theorem alternativesIn_append_blanks (s : List Char) (hr : Blanks r) :
    alternativesIn (s ++ r) = alternativesIn s := by
  obtain ⟨front, last, hs, happend⟩ := exists_split_append (· == '|') s
  rw [alternativesIn, happend r r [] (split_eq_singleton (bar_of_blanks hr)), alternativesIn, hs,
    List.map_append, List.map_append, List.map_singleton, List.map_singleton, words_append_blanks last hr]

theorem alternativesIn_blanks (s t : List Char) (hr : Blanks r) (hr' : Blanks r') (hne : r ≠ []) (hne' : r' ≠ []) :
    alternativesIn (s ++ (r ++ t)) = alternativesIn (s ++ (r' ++ t)) := by
  obtain ⟨front, last, -, happend⟩ := exists_split_append (· == '|') s
  obtain ⟨first, rest, ht⟩ := List.exists_cons_of_ne_nil (split_ne_nil (· == '|') t)
  -- the blanks stand within one piece, whose words they keep apart
  have hpieces {r : List Char} (hr : Blanks r) (hne : r ≠ []) : alternativesIn (s ++ (r ++ t)) =
      front.map words ++ (words last ++ words first) :: rest.map words := by
    have hsplit := split_append_of_forall (bar_of_blanks hr) ht
    rw [alternativesIn, happend _ _ _ hsplit, List.map_append, List.map_cons,
      words_append_blanks_append last hr hne]
  rw [hpieces hr hne, hpieces hr' hne']

theorem saying_of_blanks (hr : Blanks r) : saying r = .nothing := by
  rw [saying, List.dropWhile_eq_nil_iff.2 hr]

theorem saying_blanks_append (hr : Blanks r) (s : List Char) : saying (r ++ s) = saying s := by
  rw [saying, List.dropWhile_append_of_pos hr, saying]

theorem saying_bar (s : List Char) : saying ('|' :: s) = .more (alternativesIn s) := rfl

theorem saying_of_opens (hs : Opens s) (hne : s ≠ []) : saying s =
    match splitArrow s with
    | none => .nonsense
    | some (before, rest) => .rule (words before) (alternativesIn rest) := by
  unfold saying
  rw [dropWhile_isBlank fun c hc => (hs c hc).1]
  split
  · exact absurd rfl hne
  · exact absurd rfl (hs _ rfl).2
  · rfl

theorem Layout.Opens.append (hs : Opens s) (hne : s ≠ []) (t : List Char) : Opens (s ++ t) := by
  intro c hc
  rw [List.head?_append_of_ne_nil _ hne] at hc
  exact hs c hc

theorem saying_arrow (hs : Opens s) (harrow : ¬ ['-', '>'] <:+: s) (t : List Char) :
    saying (s ++ '-' :: '>' :: t) = .rule (words s) (alternativesIn t) := by
  have hopens : Opens (s ++ '-' :: '>' :: t) := by
    by_cases hne : s = []
    · rw [hne]
      intro c hc
      obtain rfl := Option.some.inj hc
      decide
    · exact hs.append hne _
  rw [saying_of_opens hopens (by simp), splitArrow_append harrow]

theorem saying_nonsense (hs : Opens s) (hne : s ≠ []) (harrow : ¬ ['-', '>'] <:+: s) :
    saying s = .nonsense := by
  rw [saying_of_opens hs hne]
  split
  · rfl
  · next hcut =>
    obtain ⟨hsplit, -⟩ := splitArrow_eq_some hcut
    exact absurd ⟨_, _, by rw [hsplit, List.append_assoc]; rfl⟩ harrow

/-- The four forms of a line without comments. -/
theorem line_cases {P : List Char → Prop} (blanks : ∀ r, Blanks r → P r)
    (bar : ∀ r s, Blanks r → P (r ++ '|' :: s))
    (arrow : ∀ r s t, Blanks r → Opens s → ¬ ['-', '>'] <:+: s → P (r ++ (s ++ '-' :: '>' :: t)))
    (nonsense : ∀ r s, Blanks r → Opens s → s ≠ [] → ¬ ['-', '>'] <:+: s → P (r ++ s)) (s : List Char) : P s := by
  have hlead : Blanks (s.takeWhile isBlank) := fun c hc => List.mem_takeWhile_imp hc
  have hhead := List.head?_dropWhile_not isBlank s
  rw [← List.takeWhile_append_dropWhile (p := isBlank) (l := s)]
  generalize s.takeWhile isBlank = r at hlead
  generalize s.dropWhile isBlank = s at hhead
  cases s with
  | nil =>
    rw [List.append_nil]
    exact blanks r hlead
  | cons c s =>
    by_cases hbar : c = '|'
    · rw [hbar]
      exact bar r s hlead
    · have hopens : Opens (c :: s) := fun d hd => Option.some.inj hd ▸ ⟨by simpa using hhead, hbar⟩
      cases hcut : splitArrow (c :: s) with
      | none => exact nonsense r _ hlead hopens (by simp) (splitArrow_eq_none hcut)
      | some cut =>
        obtain ⟨before, rest⟩ := cut
        obtain ⟨hsplit, harrow⟩ := splitArrow_eq_some hcut
        rw [hsplit] at hopens ⊢
        refine arrow r before rest hlead (fun d hd => hopens d ?_) harrow
        rw [List.head?_append, hd]
        rfl

/-! ### Edits of a line -/

/-- How many blanks stand between two words is of no account. -/
theorem saying_blanks (s t : List Char) (hr : Blanks r) (hr' : Blanks r') (hne : r ≠ []) (hne' : r' ≠ []) :
    saying (s ++ (r ++ t)) = saying (s ++ (r' ++ t)) := by
  induction s using line_cases with
  | blanks u hu => simp only [saying_blanks_append, hu, hr, hr']
  | bar u s hu =>
    simp only [List.append_assoc, List.cons_append, saying_blanks_append hu, saying_bar,
      alternativesIn_blanks s t hr hr' hne hne']
  | arrow u before s hu hopens harrow =>
    simp only [List.append_assoc, List.cons_append, saying_blanks_append hu, saying_arrow hopens harrow,
      alternativesIn_blanks s t hr hr' hne hne']
  | nonsense u s hu hopens hs harrow =>
    -- the first arrow is behind the blanks, if there is one
    have hopens' {r : List Char} (t : List Char) : Opens (s ++ (r ++ t)) := hopens.append hs _
    have harrow' {r t : List Char} (hr : Blanks r) (hne : r ≠ []) (ht : ¬ ['-', '>'] <:+: t) :
        ¬ ['-', '>'] <:+: s ++ (r ++ t) := fun h => (arrow_append_blanks_append hr hne h).elim harrow ht
    simp only [List.append_assoc, saying_blanks_append hu]
    cases hcut : splitArrow t with
    | none =>
      have ht := splitArrow_eq_none hcut
      rw [saying_nonsense (hopens' t) (by simp [hs]) (harrow' hr hne ht),
        saying_nonsense (hopens' t) (by simp [hs]) (harrow' hr' hne' ht)]
    | some cut =>
      obtain ⟨before, rest⟩ := cut
      obtain ⟨rfl, ht⟩ := splitArrow_eq_some hcut
      have hleft {r : List Char} (hr : Blanks r) (hne : r ≠ []) :
          saying (s ++ (r ++ (before ++ '-' :: '>' :: rest))) =
            .rule (words s ++ words before) (alternativesIn rest) := by
        rw [← List.append_assoc r, ← List.append_assoc s, saying_arrow (hopens' before) (harrow' hr hne ht),
          words_append_blanks_append s hr hne]
      rw [hleft hr hne, hleft hr' hne']

theorem saying_append_blanks (s : List Char) (hr : Blanks r) : saying (s ++ r) = saying s := by
  induction s using line_cases with
  | blanks u hu => rw [saying_blanks_append hu, saying_of_blanks hr, saying_of_blanks hu]
  | bar u s hu =>
    simp only [List.append_assoc, List.cons_append, saying_blanks_append hu, saying_bar,
      alternativesIn_append_blanks s hr]
  | arrow u before s hu hopens harrow =>
    simp only [List.append_assoc, List.cons_append, saying_blanks_append hu, saying_arrow hopens harrow,
      alternativesIn_append_blanks s hr]
  | nonsense u s hu hopens hs harrow =>
    simp only [List.append_assoc, saying_blanks_append hu]
    rw [saying_nonsense (hopens.append hs r) (by simp [hs]) (mt (arrow_append_blanks hr) harrow),
      saying_nonsense hopens hs harrow]

theorem not_mem_of_blanks (hr : Blanks r) : '#' ∉ r := fun hc => absurd (hr _ hc) (by decide)

theorem sayingOf_comment (line comment : List Char) : sayingOf (line ++ '#' :: comment) = sayingOf line :=
  congrArg saying (uncommented_append_comment line comment)

theorem sayingOf_blanks (s t : List Char) (hr : Blanks r) (hr' : Blanks r') (hne : r ≠ []) (hne' : r' ≠ []) :
    sayingOf (s ++ (r ++ t)) = sayingOf (s ++ (r' ++ t)) := by
  by_cases hs : '#' ∈ s
  · simp only [sayingOf, uncommented_append_of_mem hs]
  · simp only [sayingOf, uncommented_append hs, uncommented_append (not_mem_of_blanks hr),
      uncommented_append (not_mem_of_blanks hr')]
    exact saying_blanks s _ hr hr' hne hne'

theorem sayingOf_blanks_append (hr : Blanks r) (line : List Char) : sayingOf (r ++ line) = sayingOf line := by
  rw [sayingOf, uncommented_append (not_mem_of_blanks hr), saying_blanks_append hr, sayingOf]

theorem sayingOf_append_blanks (line : List Char) (hr : Blanks r) : sayingOf (line ++ r) = sayingOf line := by
  by_cases hline : '#' ∈ line
  · rw [sayingOf, uncommented_append_of_mem hline, sayingOf]
  · rw [sayingOf, uncommented_append hline, uncommented_eq_self (not_mem_of_blanks hr), saying_append_blanks _ hr,
      sayingOf, uncommented_eq_self hline]

/-! ### Reading what lines say -/

/-- The rules for `left` with the alternatives, each of which needs a word. -/
def readSaid (left : String) (alternatives : List (List (List Char))) : Option (List (Rule T)) :=
  if [] ∈ alternatives then none else some (alternatives.map (readRule left))

/-- The left-hand side to go on with behind a line, and the line's rules. -/
def readSaying (previous : Option String) : Saying → Option (Option String × List (Rule T))
  | .nothing => some (previous, [])
  | .more alternatives => previous.bind fun left => (readSaid left alternatives).map (some left, ·)
  | .rule [left] alternatives => (readSaid (String.ofList left) alternatives).map (some (String.ofList left), ·)
  | .rule _ _ => none
  | .nonsense => none

def readSayings (previous : Option String) : List Saying → Option (List (Rule T))
  | [] => some []
  | said :: more => (readSaying previous said).bind fun read => (readSayings read.1 more).map (read.2 ++ ·)

section
variable {left : String} {previous : Option String}

theorem readSaid_cons {words : List (List Char)} (hne : words ≠ []) (alternatives : List (List (List Char))) :
    readSaid (T := T) left (words :: alternatives) =
      (readSaid left alternatives).map (readRule left words :: ·) := by
  have hmem : [] ∈ words :: alternatives ↔ [] ∈ alternatives := by simp [hne.symm]
  unfold readSaid
  rw [if_congr hmem rfl rfl]
  split <;> rfl

theorem readSaid_append (as bs : List (List (List Char))) : readSaid (T := T) left (as ++ bs) =
    (readSaid left as).bind fun rules => (readSaid left bs).map (rules ++ ·) := by
  unfold readSaid
  by_cases ha : [] ∈ as
  · rw [if_pos (List.mem_append_left _ ha), if_pos ha]
    rfl
  · by_cases hb : [] ∈ bs
    · rw [if_pos (List.mem_append_right _ hb), if_neg ha, if_pos hb]
      rfl
    · have hab : [] ∉ as ++ bs := fun h => (List.mem_append.1 h).elim ha hb
      rw [if_neg hab, if_neg ha, if_neg hb, List.map_append]
      rfl

theorem toOption_readAlternatives (pieces : List (List Char)) :
    (readAlternatives (T := T) left pieces).toOption = readSaid left (pieces.map words) := by
  induction pieces with
  | nil => rfl
  | cons piece pieces ih =>
    rw [List.map_cons, readAlternatives]
    cases hwords : words piece with
    | nil => rfl
    | cons w ws =>
      rw [readSaid_cons (by simp), ← ih]
      dsimp only
      cases readAlternatives (T := T) left pieces <;> rfl

theorem readLeft_of_opens (hs : Opens s) : readLeft previous s =
    match splitArrow s with
    | none => .error .noArrow
    | some (before, rest) =>
      if (trim before).isEmpty || (trim before).any isBlank then
        .error (.badLeft (String.ofList (trim before)))
      else .ok (String.ofList (trim before), rest) := by
  unfold readLeft
  split
  · exact absurd rfl (hs _ rfl).2
  · rfl

theorem readSaying_rule_of_ne {words : List (List Char)} (h : ∀ w, words ≠ [w])
    (alternatives : List (List (List Char))) :
    readSaying (T := T) previous (.rule words alternatives) = none := by
  match words, h with
  | [], _ => rfl
  | [w], h => exact absurd rfl (h w)
  | _ :: _ :: _, _ => rfl

/-- What is read from a line depends on what it says. -/
theorem toOption_readLine (hne : s ≠ []) (hblank : ∀ c, s.head? = some c → isBlank c = false) :
    (readLine (T := T) previous s).toOption.map (fun read => (some read.1, read.2)) =
      readSaying previous (saying s) := by
  cases s with
  | nil => exact absurd rfl hne
  | cons c s =>
    by_cases hbar : c = '|'
    · rw [hbar, saying_bar, readSaying, alternativesIn]
      cases previous with
      | none => rfl
      | some left =>
        rw [Option.bind_some, ← toOption_readAlternatives, readLine, readLeft]
        dsimp only
        cases readAlternatives (T := T) left (split (· == '|') s) <;> rfl
    · have hopens : Opens (c :: s) := fun d hd => ⟨hblank d hd, Option.some.inj hd ▸ hbar⟩
      rw [saying_of_opens hopens hne, readLine, readLeft_of_opens hopens]
      cases splitArrow (c :: s) with
      | none => rfl
      | some cut =>
        obtain ⟨before, rest⟩ := cut
        dsimp only
        by_cases hrun : IsRun (trim before)
        · have hgood : ¬ ((trim before).isEmpty || (trim before).any isBlank) = true :=
            fun hbad => isEmpty_or_any_isBlank_iff.1 hbad hrun
          rw [if_neg hgood, words_eq_singleton_iff.2 ⟨hrun, rfl⟩, readSaying, alternativesIn,
            ← toOption_readAlternatives]
          dsimp only
          cases readAlternatives (T := T) (String.ofList (trim before)) (split (· == '|') rest) <;> rfl
        · -- what stands before the arrow is not one word
          have hwords : ∀ w, words before ≠ [w] := fun w hw => by
            obtain ⟨hw, htrim⟩ := words_eq_singleton_iff.1 hw
            exact hrun (htrim ▸ hw)
          rw [if_pos (isEmpty_or_any_isBlank_iff.2 hrun), readSaying_rule_of_ne hwords]
          rfl

theorem saying_content (line : List Char) : saying (content line) = sayingOf line := by
  obtain ⟨lead, trail, hsplit, hlead, htrail⟩ := exists_trim (uncommented line)
  rw [sayingOf, hsplit, saying_append_blanks _ htrail, saying_blanks_append hlead]
  rfl

/-- The number of the first line shows in errors only. -/
theorem toOption_readLines (number : Nat) (previous : Option String) (ls : List (List Char)) :
    (readLines (T := T) number previous ls).toOption = readSayings previous (ls.map sayingOf) := by
  induction ls generalizing number previous with
  | nil => rfl
  | cons line ls ih =>
    rw [List.map_cons, readSayings, ← saying_content, readLines]
    cases hcontent : content line with
    | nil =>
      rw [show saying [] = .nothing from rfl, readSaying, Option.bind_some]
      exact (ih (number + 1) previous).trans (congrFun Option.map_id _).symm
    | cons c s =>
      have hblank : ∀ d, (c :: s).head? = some d → isBlank d = false :=
        fun d hd => isBlank_of_head?_trim (hcontent ▸ hd)
      rw [← toOption_readLine (by simp) hblank]
      dsimp only
      cases readLine (T := T) previous (c :: s) with
      | error fault => rfl
      | ok read =>
        dsimp only [Except.toOption, Option.map_some, Option.bind_some]
        rw [← ih (number + 1)]
        cases readLines (T := T) (number + 1) (some read.1) ls <;> rfl

end

/-! ### Edits of a text -/

/-- Wherever the lines stand, the same is read from them and behind them. -/
def Alike (T : Type) [Terminal T] (said said' : List Saying) : Prop :=
  ∀ previous back, readSayings (T := T) previous (said ++ back) = readSayings previous (said' ++ back)

namespace Alike
variable {said said' between : List Saying} {words : List (List Char)}

theorem context (h : Alike T said said') (front back : List Saying) (previous : Option String) :
    readSayings (T := T) previous (front ++ (said ++ back)) = readSayings previous (front ++ (said' ++ back)) := by
  induction front generalizing previous with
  | nil => exact h previous back
  | cons first front ih => simp only [List.cons_append, readSayings, ih]

theorem of_sayingOf_eq {line line' : List Char} (h : sayingOf line = sayingOf line') :
    Alike T ([line].map sayingOf) ([line'].map sayingOf) := fun previous back => by
  rw [List.map_singleton, List.map_singleton, h]

theorem nothing : Alike T [] [.nothing] := fun previous back => by
  rw [List.singleton_append, readSayings, readSaying, Option.bind_some]
  exact (congrFun Option.map_id _).symm

/-- Alternatives may be read in two parts. -/
theorem readSaid_append_bind (left : String) (as bs : List (List (List Char))) (back : List Saying) :
    ((readSaid (T := T) left (as ++ bs)).map (some left, ·)).bind
      (fun read => (readSayings read.1 back).map (read.2 ++ ·)) =
    ((readSaid left as).map (some left, ·)).bind fun read =>
      (readSayings read.1 (.more bs :: back)).map (read.2 ++ ·) := by
  rw [readSaid_append]
  cases readSaid (T := T) left as with
  | none => rfl
  | some rules =>
    simp only [Option.bind_some, Option.map_some, readSayings, readSaying]
    cases readSaid (T := T) left bs with
    | none => rfl
    | some rules' =>
      simp only [Option.bind_some, Option.map_some]
      cases readSayings (T := T) (some left) back <;> simp

theorem more (as bs : List (List (List Char))) : Alike T [.more (as ++ bs)] [.more as, .more bs] := by
  intro previous back
  cases previous with
  | none => rfl
  | some left => exact readSaid_append_bind left as bs back

theorem rule (words : List (List Char)) (as bs : List (List (List Char))) :
    Alike T [.rule words (as ++ bs)] [.rule words as, .more bs] := by
  intro previous back
  by_cases hwords : ∃ left, words = [left]
  · obtain ⟨left, rfl⟩ := hwords
    exact readSaid_append_bind (String.ofList left) as bs back
  · have hne : ∀ left, words ≠ [left] := not_exists.1 hwords
    simp only [List.cons_append, readSayings, readSaying_rule_of_ne hne, Option.bind_none]

/-- Until the next rule begins, all lines go on with the same left-hand side. -/
theorem readSayings_between (left : List Char) (bs : List (List (List Char))) (back : List Saying)
    (hbetween : ∀ said ∈ between, said = .nothing ∨ ∃ as, said = .more as) :
    readSayings (T := T) (some (String.ofList left)) (between ++ .more bs :: back) =
      readSayings (some (String.ofList left)) (between ++ .rule [left] bs :: back) := by
  induction between with
  | nil => rfl
  | cons said between ih =>
    obtain ⟨hsaid, hmore⟩ := List.forall_mem_cons.1 hbetween
    rcases hsaid with rfl | ⟨as, rfl⟩
    · simp only [List.cons_append, readSayings, readSaying, Option.bind_some, ih hmore]
    · simp only [List.cons_append, readSayings, readSaying, Option.bind_some, Option.bind_map,
        Function.comp_def, ih hmore]

theorem again (words : List (List Char)) (as bs : List (List (List Char)))
    (hbetween : ∀ said ∈ between, said = .nothing ∨ ∃ as, said = .more as) :
    Alike T (.rule words as :: (between ++ [.more bs])) (.rule words as :: (between ++ [.rule words bs])) := by
  intro previous back
  by_cases hwords : ∃ left, words = [left]
  · obtain ⟨left, rfl⟩ := hwords
    simp only [List.cons_append, List.append_assoc, List.nil_append, readSayings, readSaying, Option.bind_map,
      Function.comp_def, readSayings_between left bs back hbetween]
  · have hne : ∀ left, words ≠ [left] := not_exists.1 hwords
    simp only [List.cons_append, readSayings, readSaying_rule_of_ne hne, Option.bind_none]

end Alike

theorem Layout.GoesOn.sayingOf_eq {line : List Char} (h : GoesOn line) : ∃ as, sayingOf line = .more as := by
  obtain ⟨lead, rest, hlead, rfl⟩ := h
  exact ⟨_, (sayingOf_blanks_append hlead _).trans (saying_bar (uncommented rest))⟩

theorem sayingOf_arrow {gap : List Char} (hopens : Opens left) (harrow : ¬ ['-', '>'] <:+: left)
    (hcomment : '#' ∉ left) (hgap : Blanks gap) (rest : List Char) :
    sayingOf (left ++ (gap ++ '-' :: '>' :: rest)) = .rule (words left) (alternativesIn (uncommented rest)) := by
  have hbehind : uncommented ('-' :: '>' :: rest) = '-' :: '>' :: uncommented rest := rfl
  rw [sayingOf, uncommented_append hcomment, uncommented_append (not_mem_of_blanks hgap), hbehind]
  by_cases hne : left = []
  · rw [hne, List.nil_append, saying_blanks_append hgap]
    exact saying_arrow (s := []) (by simp [Opens]) (by simp) _
  · rw [← List.append_assoc, saying_arrow (hopens.append hne gap) (mt (arrow_append_blanks hgap) harrow),
      words_append_blanks left hgap]

theorem Layout.BeginsRule.sayingOf_eq {line : List Char} (h : BeginsRule left line) :
    ∃ as, sayingOf line = .rule (words left) as := by
  obtain ⟨lead, gap, rest, hlead, hgap, rfl⟩ := h.eq_arrow
  exact ⟨_, (sayingOf_blanks_append hlead _).trans (sayingOf_arrow h.opens h.noArrow h.noComment hgap rest)⟩

/-- A bar that stands behind the arrow or the first bar ends an alternative. -/
theorem saying_break (hu : GoesOn u ∨ ['-', '>'] <:+: u) (s : List Char) :
    (∃ as, saying u = .more as ∧ saying (u ++ '|' :: s) = .more (as ++ alternativesIn s)) ∨
    ∃ words as, saying u = .rule words as ∧ saying (u ++ '|' :: s) = .rule words (as ++ alternativesIn s) := by
  have hmore {lead rest : List Char} (hlead : Blanks lead) : saying (lead ++ '|' :: rest) =
      .more (alternativesIn rest) ∧ saying (lead ++ '|' :: rest ++ '|' :: s) =
        .more (alternativesIn rest ++ alternativesIn s) := by
    rw [List.append_assoc, saying_blanks_append hlead, saying_blanks_append hlead, List.cons_append, saying_bar,
      saying_bar, alternativesIn_bar]
    exact ⟨rfl, rfl⟩
  rcases hu with ⟨lead, rest, hlead, rfl⟩ | hu
  · exact .inl ⟨_, hmore hlead⟩
  · induction u using line_cases with
    | blanks r hr =>
      rw [← List.append_nil r] at hu
      exact absurd (arrow_blanks_append hr hu) (by simp)
    | bar r rest hr => exact .inl ⟨_, hmore hr⟩
    | arrow r before rest hr hopens harrow =>
      refine .inr ⟨words before, alternativesIn rest, ?_, ?_⟩
      · rw [saying_blanks_append hr, saying_arrow hopens harrow]
      · rw [List.append_assoc, saying_blanks_append hr, List.append_assoc, List.cons_append, List.cons_append,
          saying_arrow hopens harrow, alternativesIn_bar]
    | nonsense r before hr _ _ harrow => exact absurd (arrow_blanks_append hr hu) harrow

theorem Layout.Edit.alike {old new : List (List Char)} (h : Edit old new) :
    Alike T (old.map sayingOf) (new.map sayingOf) := by
  cases h with
  | line h =>
    rw [List.map_singleton, sayingOf, saying_of_blanks h]
    exact .nothing
  | comment line comment => exact .of_sayingOf_eq (sayingOf_comment line comment).symm
  | blanks s t hr hr' hne hne' => exact .of_sayingOf_eq (sayingOf_blanks s t hr hr' hne hne')
  | lead hr line => exact .of_sayingOf_eq (sayingOf_blanks_append hr line).symm
  | trail hr line => exact .of_sayingOf_eq (sayingOf_append_blanks line hr).symm
  | @breakAt u hcomment hu rest =>
    have hfirst : sayingOf u = saying u := congrArg saying (uncommented_eq_self hcomment)
    have hboth : sayingOf (u ++ '|' :: rest) = saying (u ++ '|' :: uncommented rest) :=
      congrArg saying (uncommented_append hcomment ('|' :: rest))
    have hsecond : sayingOf ('|' :: rest) = .more (alternativesIn (uncommented rest)) := rfl
    rw [List.map_singleton, List.map_cons, List.map_singleton, hfirst, hboth, hsecond]
    rcases saying_break hu (uncommented rest) with ⟨as, hu, hline⟩ | ⟨words, as, hu, hline⟩
    · rw [hu, hline]
      exact .more as _
    · rw [hu, hline]
      exact .rule words as _
  | @again left first lead gap between hfirst hbetween hlead hgap rest =>
    obtain ⟨as, hrule⟩ := hfirst.sayingOf_eq
    have hmore : sayingOf (lead ++ '|' :: rest) = .more (alternativesIn (uncommented rest)) :=
      (sayingOf_blanks_append hlead _).trans rfl
    simp only [List.map_cons, List.map_append, List.map_nil, hrule, hmore,
      sayingOf_arrow hfirst.opens hfirst.noArrow hfirst.noComment hgap]
    refine .again (words left) as _ fun said hsaid => ?_
    obtain ⟨line, hline, rfl⟩ := List.mem_map.1 hsaid
    exact (hbetween line hline).imp saying_of_blanks GoesOn.sayingOf_eq

/-! ### Texts -/

theorem sayingOf_dropReturn (line : List Char) : sayingOf (dropReturn line) = sayingOf line := by
  unfold dropReturn
  split
  · next hreturn =>
    have hline := List.dropLast_append_getLast? '\r' hreturn
    have hblank : Blanks ['\r'] := by decide
    conv_rhs => rw [← hline, sayingOf_append_blanks _ hblank]
  · rfl

/-- The end of a line says nothing, and neither does an empty line at the end of a text. -/
theorem readSayings_linesOfPieces (ls : List (List Char)) (previous : Option String) :
    readSayings (T := T) previous ((linesOfPieces ls).map sayingOf) = readSayings previous (ls.map sayingOf) := by
  fun_induction linesOfPieces ls generalizing previous with
  | case1 => rfl
  | case2 last hempty =>
    rw [List.isEmpty_iff.1 hempty]
    exact Alike.nothing previous []
  | case3 last _ => rfl
  | case4 piece pieces _ ih => simp only [List.map_cons, readSayings, sayingOf_dropReturn, ih]

theorem ofText_eq_ok_iff (text : String) (g : Grammar T) :
    ofText text = .ok g ↔ ∃ first rules, readSayings none ((linesOf text).map sayingOf) = some (first :: rules) ∧
      ofRules first.left (first :: rules) = .ok g := by
  rw [← readSayings_linesOfPieces, ← toOption_readLines 1, ofText, lines, linesOf]
  cases readLines (T := T) 1 none (linesOfPieces (split (· == '\n') text.toList)) with
  | error e => simp [Except.toOption]
  | ok rules => cases rules <;> simp [Except.toOption]

theorem Layout.Edited.ofText_eq_ok_iff {text text' : String} (h : Edited text text') (g : Grammar T) :
    ofText text = .ok g ↔ ofText text' = .ok g := by
  obtain ⟨front, old, new, back, hedit, htext, htext'⟩ := h
  rw [Grammar.ofText_eq_ok_iff, Grammar.ofText_eq_ok_iff, htext, htext']
  simp only [List.map_append, hedit.alike.context]

/-- The layout of a text is of no account: a text that is the same but for its layout writes down the same
grammar, if it writes down one. -/
theorem ofText_eq_ok_iff_of_sameButForLayout {text text' : String} (h : SameButForLayout text text')
    (g : Grammar T) : ofText text = .ok g ↔ ofText text' = .ok g := by
  induction h with
  | rel text text' h => exact h.ofText_eq_ok_iff g
  | refl text => exact Iff.rfl
  | symm text text' _ ih => exact ih.symm
  | trans text text' text'' _ _ ih ih' => exact ih.trans ih'

/-- The grammar with scattered rules, with two alternatives on one line, and with the second of them written
as a rule and no empty line. -/
theorem ofText_eq_ok_iff_of_sameButForLayout_scattered :
    let joined := "S -> NUMBER a- # the first rule\n\nEPSILON->S RES\n  a- -> NOT|EPSILON\nx|y -> FOR\n" ++
      "> -> λ IFELSE\nS -> RES\nλ->> NUMBER"
    let apart := "S -> NUMBER a- # the first rule\nEPSILON->S RES\n  a- -> NOT\na-->EPSILON\nx|y -> FOR\n" ++
      "> -> λ IFELSE\nS -> RES\nλ->> NUMBER"
    SameButForLayout joined apart ∧ ofText joined = .ok Scattered.grammar ∧
      ofText apart = .ok Scattered.grammar := by
  intro joined apart
  let spaced := "S -> NUMBER a- # the first rule\n\nEPSILON->S RES\n  a- -> NOT\na-->EPSILON\nx|y -> FOR\n" ++
    "> -> λ IFELSE\nS -> RES\nλ->> NUMBER"
  let start := "S -> NUMBER a- # the first rule".toList
  let front := ["EPSILON->S RES".toList]
  let back := ["x|y -> FOR".toList, "> -> λ IFELSE".toList, "S -> RES".toList, "λ->> NUMBER".toList]
  have hbreak : Edited joined Scattered.text :=
    ⟨start :: [] :: front, _, _, back, .breakAt (u := "  a- -> NOT".toList) (by decide)
      (.inr ⟨"  a- ".toList, " NOT".toList, by decide⟩) "EPSILON".toList, by decide +kernel, by decide +kernel⟩
  have hopens : Opens "a-".toList := fun c hc => by
    obtain rfl := Option.some.inj hc
    decide
  have hrule : BeginsRule "a-".toList "  a- -> NOT".toList :=
    ⟨hopens, by decide, by decide, "  ".toList, [' '], " NOT".toList, by decide, by decide, by decide⟩
  have hblanks : Blanks [] := by decide
  have hbetween : ∀ line ∈ [], HoldsNothing line ∨ GoesOn line := by simp
  have hagain : Edited Scattered.text spaced :=
    ⟨start :: [] :: front, _, _, back, .again hrule hbetween hblanks hblanks "EPSILON".toList,
      by decide +kernel, by decide +kernel⟩
  have hnothing : HoldsNothing [] := by decide
  have hline : Edited apart spaced :=
    ⟨[start], _, _, front ++ "  a- -> NOT".toList :: "a-->EPSILON".toList :: back, .line hnothing,
      by decide +kernel, by decide +kernel⟩
  have hjoined : SameButForLayout joined Scattered.text := .rel _ _ hbreak
  have hapart : SameButForLayout Scattered.text apart := (Relation.EqvGen.rel _ _ hagain).trans _ _ _
    (.symm _ _ (.rel _ _ hline))
  exact ⟨hjoined.trans _ _ _ hapart,
    (ofText_eq_ok_iff_of_sameButForLayout hjoined _).2 Scattered.ofText_text,
    (ofText_eq_ok_iff_of_sameButForLayout hapart _).1 Scattered.ofText_text⟩

end Predictive.Grammar
