import Mathlib.Data.List.Infix
import Mathlib.Data.List.TakeWhile
import Predictive.Text.Line

/-!
# Texts that are put together and cut again

A text is cut at a separator in the middle of it as its two sides are (`split_append_cons`). What is said
here about words, lines and pieces between bars follows from this one equation.
-/

namespace Predictive.Text
variable {p : Char → Bool} {c : Char} {s t w : List Char}

/-! ### Pieces -/

theorem split_eq_singleton (h : ∀ c ∈ s, p c = false) : split p s = [s] := by
  induction s with
  | nil => rfl
  | cons c s ih =>
    have hc := h c (List.mem_cons_self ..)
    rw [split, hc, ih fun d hd => h d (List.mem_cons_of_mem _ hd)]
    rfl

/-- What has no separators goes to the first piece of the text behind it. -/
theorem split_append_of_forall (hs : ∀ c ∈ s, p c = false) {first : List Char} {rest : List (List Char)}
    (ht : split p t = first :: rest) : split p (s ++ t) = (s ++ first) :: rest := by
  induction s with
  | nil => exact ht
  | cons c s ih =>
    obtain ⟨hc, hs⟩ := List.forall_mem_cons.1 hs
    rw [List.cons_append, split, hc, ih hs]
    rfl

/-- A separator ends a piece, and the next one begins behind it. -/
theorem split_append_cons (hc : p c = true) : split p (s ++ c :: t) = split p s ++ split p t := by
  induction s with
  | nil => simp [split, hc]
  | cons d s ih =>
    rw [List.cons_append, split, split, ih]
    by_cases hd : p d = true
    · rw [if_pos hd, if_pos hd, List.cons_append]
    · rw [if_neg hd, if_neg hd]
      -- the character goes to the first piece
      obtain ⟨piece, pieces, hsplit⟩ := List.exists_cons_of_ne_nil (split_ne_nil p s)
      rw [hsplit]
      rfl

/-- The last piece of a text goes on in the first piece of the text behind it. -/
theorem exists_split_append (p : Char → Bool) (s : List Char) : ∃ front last, split p s = front ++ [last] ∧
    ∀ t first rest, split p t = first :: rest → split p (s ++ t) = front ++ (last ++ first) :: rest := by
  induction s with
  | nil => exact ⟨[], [], rfl, fun t first rest h => h⟩
  | cons c s ih =>
    obtain ⟨front, last, hs, happend⟩ := ih
    by_cases hc : p c = true
    · refine ⟨[] :: front, last, by rw [split, if_pos hc, hs]; rfl, fun t first rest h => ?_⟩
      rw [List.cons_append, split, if_pos hc, happend t first rest h]
      rfl
    · cases front with
      | nil =>
        refine ⟨[], c :: last, by rw [split, if_neg hc, hs]; rfl, fun t first rest h => ?_⟩
        rw [List.cons_append, split, if_neg hc, happend t first rest h]
        rfl
      | cons piece front =>
        refine ⟨(c :: piece) :: front, last, by rw [split, if_neg hc, hs]; rfl, fun t first rest h => ?_⟩
        rw [List.cons_append, split, if_neg hc, happend t first rest h]
        rfl

theorem mem_of_mem_split (hw : w ∈ split p s) (hc : c ∈ w) : c ∈ s ∧ p c = false := by
  induction s generalizing w with
  | nil =>
    obtain rfl := List.mem_singleton.1 hw
    cases hc
  | cons d s ih =>
    obtain ⟨piece, pieces, hsplit⟩ := List.exists_cons_of_ne_nil (split_ne_nil p s)
    have hrest {w : List Char} (hw : w ∈ piece :: pieces) (hc : c ∈ w) : c ∈ d :: s ∧ p c = false := by
      obtain ⟨hmem, hp⟩ := ih (hsplit ▸ hw) hc
      exact ⟨List.mem_cons_of_mem _ hmem, hp⟩
    rw [split, hsplit] at hw
    by_cases hd : p d = true
    · rw [if_pos hd] at hw
      rcases List.mem_cons.1 hw with rfl | hw
      · cases hc
      · exact hrest hw hc
    · rw [if_neg hd] at hw
      rcases List.mem_cons.1 hw with rfl | hw
      · rcases List.mem_cons.1 hc with rfl | hc
        · exact ⟨List.mem_cons_self .., by simpa using hd⟩
        · exact hrest (List.mem_cons_self ..) hc
      · exact hrest (List.mem_cons_of_mem _ hw) hc

/-! ### Words -/

theorem words_append_cons (hc : isBlank c = true) : words (s ++ c :: t) = words s ++ words t := by
  rw [words, split_append_cons hc, List.filter_append]
  rfl

theorem words_cons (hc : isBlank c = true) : words (c :: s) = words s := by
  have happend := words_append_cons (s := []) (t := s) hc
  exact happend

theorem words_blanks_append (hs : ∀ c ∈ s, isBlank c = true) (t : List Char) : words (s ++ t) = words t := by
  induction s with
  | nil => rfl
  | cons c s ih =>
    obtain ⟨hc, hs⟩ := List.forall_mem_cons.1 hs
    rw [List.cons_append, words_cons hc, ih hs]

/-- Blanks between two texts keep their words apart, however many they are. -/
theorem words_append_blanks_append (s : List Char) (hw : ∀ c ∈ w, isBlank c = true) (hne : w ≠ [])
    (t : List Char) : words (s ++ (w ++ t)) = words s ++ words t := by
  obtain ⟨c, w, rfl⟩ := List.exists_cons_of_ne_nil hne
  obtain ⟨hc, hw⟩ := List.forall_mem_cons.1 hw
  rw [List.cons_append, words_append_cons hc, words_blanks_append hw]

theorem words_append_blanks (s : List Char) (ht : ∀ c ∈ t, isBlank c = true) : words (s ++ t) = words s := by
  by_cases hne : t = []
  · rw [hne, List.append_nil]
  · have happend := words_append_blanks_append s ht hne []
    rw [List.append_nil] at happend
    exact happend.trans (List.append_nil _)

theorem words_eq_singleton (hne : w ≠ []) (h : ∀ c ∈ w, isBlank c = false) : words w = [w] := by
  rw [words, split_eq_singleton h, List.filter_cons_of_pos (by simpa using hne)]
  rfl

/-- A run of characters that are not blank. -/
def IsRun (w : List Char) : Prop := w ≠ [] ∧ ∀ c ∈ w, isBlank c = false

theorem isEmpty_or_any_isBlank_iff : (w.isEmpty || w.any isBlank) = true ↔ ¬ IsRun w := by
  rw [Bool.or_eq_true, List.isEmpty_iff, List.any_eq_true, IsRun, not_and_or, not_not]
  refine or_congr_right ⟨fun ⟨c, hc, hblank⟩ h => by simp [h c hc] at hblank, fun h => ?_⟩
  by_contra hnone
  exact h fun c hc => Bool.eq_false_iff.2 fun hblank => hnone ⟨c, hc, hblank⟩

theorem isRun_of_mem_words (h : w ∈ words s) : IsRun w := by
  obtain ⟨hsplit, hne⟩ := List.mem_filter.1 h
  exact ⟨by simpa using hne, fun c hc => (mem_of_mem_split hsplit hc).2⟩

theorem mem_of_mem_words (hw : w ∈ words s) (hc : c ∈ w) : c ∈ s :=
  (mem_of_mem_split (List.mem_filter.1 hw).1 hc).1

/-- Words with a blank between any two of them are read back. -/
theorem words_intercalate {ws : List (List Char)} (h : ∀ w ∈ ws, IsRun w) :
    words ([' '].intercalate ws) = ws := by
  induction ws with
  | nil => rfl
  | cons w ws ih =>
    obtain ⟨hne, hblank⟩ := h w (List.mem_cons_self ..)
    have hrest := ih fun w hw => h w (List.mem_cons_of_mem _ hw)
    cases ws with
    | nil => rw [List.intercalate_singleton, words_eq_singleton hne hblank]
    | cons w' ws =>
      rw [List.intercalate_cons_cons, List.append_assoc, List.singleton_append,
        words_append_cons (by rfl), words_eq_singleton hne hblank, hrest]
      rfl

/-! ### Lines -/

theorem dropReturn_of_getLast?_ne (h : s.getLast? ≠ some '\r') : dropReturn s = s := if_neg h

/-- Lines that are written one below the other are read back. -/
theorem lines_flatMap {ls : List (List Char)}
    (h : ∀ l ∈ ls, '\n' ∉ l ∧ l.getLast? ≠ some '\r') : lines (ls.flatMap (· ++ ['\n'])) = ls := by
  induction ls with
  | nil => rfl
  | cons l ls ih =>
    obtain ⟨hfeed, hreturn⟩ := h l (List.mem_cons_self ..)
    have hl : split (· == '\n') l = [l] := split_eq_singleton fun c hc => by
      rw [beq_eq_false_iff_ne]
      rintro rfl
      exact hfeed hc
    rw [List.flatMap_cons, lines, List.append_assoc, List.singleton_append,
      split_append_cons (by rfl), hl, List.singleton_append]
    -- there is a piece behind the last line, so `l` is not the one that is dropped if it is empty
    obtain ⟨piece, pieces, hsplit⟩ :=
      List.exists_cons_of_ne_nil (split_ne_nil (· == '\n') (ls.flatMap (· ++ ['\n'])))
    have hrest := ih fun l' hl' => h l' (List.mem_cons_of_mem _ hl')
    rw [lines, hsplit] at hrest
    rw [hsplit, linesOfPieces, hrest, dropReturn_of_getLast?_ne hreturn]
    simp

/-! ### Arrows -/

/-- An arrow does not go over a character that is not one of its own. -/
theorem arrow_append_cons (hdash : c ≠ '-') (hangle : c ≠ '>') (h : ['-', '>'] <:+: s ++ c :: t) :
    ['-', '>'] <:+: s ∨ ['-', '>'] <:+: t := by
  induction s with
  | nil =>
    rcases List.infix_cons_iff.1 h with hfirst | ht
    · exact absurd (List.cons_prefix_cons.1 hfirst).1.symm hdash
    · exact .inr ht
  | cons d s ih =>
    rcases List.infix_cons_iff.1 h with hfirst | hrest
    · obtain ⟨rfl, hsecond⟩ := List.cons_prefix_cons.1 hfirst
      cases s with
      | nil => exact absurd (List.cons_prefix_cons.1 hsecond).1.symm hangle
      | cons e s =>
        obtain ⟨rfl, -⟩ := List.cons_prefix_cons.1 hsecond
        exact .inl ⟨[], s, rfl⟩
    · exact (ih hrest).imp_left List.infix_cons

theorem arrow_blanks_append (hs : ∀ c ∈ s, isBlank c = true) (h : ['-', '>'] <:+: s ++ t) : ['-', '>'] <:+: t := by
  induction s with
  | nil => exact h
  | cons c s ih =>
    obtain ⟨hc, hs⟩ := List.forall_mem_cons.1 hs
    refine ih hs ((List.infix_cons_iff.1 h).resolve_left fun hfirst => ?_)
    rw [← (List.cons_prefix_cons.1 hfirst).1] at hc
    cases hc

theorem arrow_append_blanks_append (hw : ∀ c ∈ w, isBlank c = true) (hne : w ≠ [])
    (h : ['-', '>'] <:+: s ++ (w ++ t)) : ['-', '>'] <:+: s ∨ ['-', '>'] <:+: t := by
  obtain ⟨c, w, rfl⟩ := List.exists_cons_of_ne_nil hne
  obtain ⟨hc, hw⟩ := List.forall_mem_cons.1 hw
  have hdash : c ≠ '-' := by rintro rfl; cases hc
  have hangle : c ≠ '>' := by rintro rfl; cases hc
  exact (arrow_append_cons hdash hangle h).imp_right (arrow_blanks_append hw)

theorem arrow_append_blanks (hw : ∀ c ∈ w, isBlank c = true) (h : ['-', '>'] <:+: s ++ w) : ['-', '>'] <:+: s := by
  by_cases hne : w = []
  · rwa [hne, List.append_nil] at h
  · rw [← List.append_nil w] at h
    exact (arrow_append_blanks_append hw hne h).resolve_right (by simp)

/-- The arrow that is written behind a text without arrows is the first one. -/
theorem splitArrow_append (h : ¬ ['-', '>'] <:+: s) : splitArrow (s ++ '-' :: '>' :: t) = some (s, t) := by
  induction s with
  | nil => rfl
  | cons c s ih =>
    have hrest := ih fun hs => h (List.infix_cons hs)
    rw [List.cons_append, splitArrow, hrest]
    · rfl
    · -- an arrow that begins at the dash would be the two first characters
      rintro u rfl hu
      cases s with
      | nil => simp at hu
      | cons d s =>
        obtain ⟨rfl, -⟩ := List.cons.inj hu
        exact h ⟨[], s, rfl⟩

theorem splitArrow_eq_none (h : splitArrow s = none) : ¬ ['-', '>'] <:+: s := by
  fun_induction splitArrow s with
  | case1 => simp
  | case2 s => cases h
  | case3 c s hnot ih =>
    intro hinside
    rcases List.infix_cons_iff.1 hinside with ⟨v, hv⟩ | hinside
    · obtain ⟨rfl, rfl⟩ := List.cons.inj hv
      exact hnot _ rfl rfl
    · exact ih (Option.map_eq_none_iff.1 h) hinside

theorem splitArrow_eq_some {u : List Char} (h : splitArrow s = some (u, t)) :
    s = u ++ '-' :: '>' :: t ∧ ¬ ['-', '>'] <:+: u := by
  fun_induction splitArrow s generalizing u with
  | case1 => cases h
  | case2 s =>
    cases h
    exact ⟨rfl, by simp⟩
  | case3 c s hnot ih =>
    obtain ⟨⟨u', t'⟩, hcut, heq⟩ := Option.map_eq_some_iff.1 h
    obtain ⟨rfl, rfl⟩ := Prod.mk.inj heq
    obtain ⟨hs, harrow⟩ := ih hcut
    refine ⟨congrArg (c :: ·) hs, fun hinside => ?_⟩
    rcases List.infix_cons_iff.1 hinside with ⟨v, hv⟩ | hinside
    · obtain ⟨rfl, rfl⟩ := List.cons.inj hv
      exact hnot _ rfl hs
    · exact harrow hinside

/-! ### Blanks at the ends -/

theorem dropWhile_isBlank (h : ∀ c, s.head? = some c → isBlank c = false) : s.dropWhile isBlank = s := by
  cases s with
  | nil => rfl
  | cons c s => rw [List.dropWhile_cons_of_neg (by simp [h c rfl])]

theorem trim_eq_self (hhead : ∀ c, s.head? = some c → isBlank c = false)
    (hlast : ∀ c, s.getLast? = some c → isBlank c = false) : trim s = s := by
  rw [trim, dropWhile_isBlank hhead, dropWhile_isBlank (by rwa [List.head?_reverse]),
    List.reverse_reverse]

theorem trim_append_blank (h : IsRun w) (hc : isBlank c = true) : trim (w ++ [c]) = w := by
  have hhead : ∀ d, (w ++ [c]).head? = some d → isBlank d = false := fun d hd => by
    rw [List.head?_append_of_ne_nil _ h.1] at hd
    exact h.2 d (List.mem_of_mem_head? hd)
  have hlast : ∀ d, w.reverse.head? = some d → isBlank d = false := fun d hd =>
    h.2 d (List.mem_reverse.1 (List.mem_of_mem_head? hd))
  rw [trim, dropWhile_isBlank hhead, List.reverse_append, List.reverse_singleton, List.singleton_append,
    List.dropWhile_cons_of_pos hc, dropWhile_isBlank hlast, List.reverse_reverse]

/-- Trimming takes blanks off both ends. -/
theorem exists_trim (s : List Char) : ∃ lead trail, s = lead ++ trim s ++ trail ∧
    (∀ c ∈ lead, isBlank c = true) ∧ ∀ c ∈ trail, isBlank c = true := by
  refine ⟨s.takeWhile isBlank, ((s.dropWhile isBlank).reverse.takeWhile isBlank).reverse, ?_, ?_, ?_⟩
  · rw [trim, List.append_assoc, ← List.reverse_append, List.takeWhile_append_dropWhile, List.reverse_reverse,
      List.takeWhile_append_dropWhile]
  · exact fun c hc => List.mem_takeWhile_imp hc
  · intro c hc
    exact List.mem_takeWhile_imp (List.mem_reverse.1 hc)

theorem isPrefix_trim (s : List Char) : trim s <+: s.dropWhile isBlank := by
  rw [trim, ← List.reverse_suffix, List.reverse_reverse]
  exact List.dropWhile_suffix _

theorem isInfix_trim (s : List Char) : trim s <:+: s :=
  (isPrefix_trim s).isInfix.trans (List.dropWhile_suffix _).isInfix

theorem head?_trim (h : (trim s).head? = some c) : (s.dropWhile isBlank).head? = some c := by
  obtain ⟨t, ht⟩ := isPrefix_trim s
  rw [← ht, List.head?_append, h]
  rfl

theorem isBlank_of_head?_trim (h : (trim s).head? = some c) : isBlank c = false := by
  have hhead := List.head?_dropWhile_not isBlank s
  rw [head?_trim h] at hhead
  simpa using hhead

theorem isBlank_of_getLast?_trim (h : (trim s).getLast? = some c) : isBlank c = false := by
  have hlast := List.head?_dropWhile_not isBlank (s.dropWhile isBlank).reverse
  rw [trim, List.getLast?_reverse] at h
  rw [h] at hlast
  simpa using hlast

theorem words_ne_nil (hc : c ∈ s) (hblank : isBlank c = false) : words s ≠ [] := by
  intro h
  have hmem : c ∈ (split isBlank s).flatten := by
    rw [flatten_split]
    exact List.mem_filter.2 ⟨hc, by simp [hblank]⟩
  obtain ⟨w, hw, hcw⟩ := List.mem_flatten.1 hmem
  have hempty := List.filter_eq_nil_iff.1 h w hw
  rw [List.isEmpty_eq_false_iff_exists_mem.2 ⟨c, hcw⟩] at hempty
  exact hempty rfl

theorem words_trim (s : List Char) : words (trim s) = words s := by
  obtain ⟨lead, trail, hsplit, hlead, htrail⟩ := exists_trim s
  conv_rhs => rw [hsplit, words_append_blanks _ htrail, words_blanks_append hlead]

/-- A blank that trimming leaves has a word on each side. -/
theorem words_ne_nil_of_trim (h : trim s = t ++ c :: w) (hc : isBlank c = true) : words t ≠ [] ∧ words w ≠ [] := by
  have hhead : ∀ d, (t ++ c :: w).head? = some d → isBlank d = false := by
    rw [← h]
    exact fun d hd => isBlank_of_head?_trim hd
  have hlast : ∀ d, (t ++ c :: w).getLast? = some d → isBlank d = false := by
    rw [← h]
    exact fun d hd => isBlank_of_getLast?_trim hd
  constructor
  · cases t with
    | nil => exact absurd hc (by simp [hhead c rfl])
    | cons d t => exact words_ne_nil (List.mem_cons_self ..) (hhead d rfl)
  · rw [List.getLast?_append, List.getLast?_cons] at hlast
    cases hw : w.getLast? with
    | none => exact absurd hc (by simp [hlast c (by rw [hw]; rfl)])
    | some d => exact words_ne_nil (List.mem_of_getLast? hw) (hlast d (by rw [hw]; rfl))

/-- A text of one word is that word with blanks around it. -/
theorem words_eq_singleton_iff : words s = [w] ↔ IsRun w ∧ trim s = w := by
  constructor
  · intro h
    refine ⟨isRun_of_mem_words (h ▸ List.mem_singleton_self w), ?_⟩
    rw [← words_trim] at h
    have hne : trim s ≠ [] := fun hnil => by
      rw [hnil] at h
      cases h
    have hblank : ∀ c ∈ trim s, isBlank c = false := by
      refine fun c hc => Bool.eq_false_iff.2 fun hcblank => ?_
      obtain ⟨t, u, htrim⟩ := List.append_of_mem hc
      obtain ⟨ht, hu⟩ := words_ne_nil_of_trim htrim hcblank
      rw [htrim, words_append_cons hcblank] at h
      rcases List.append_eq_singleton_iff.1 h with ⟨hnil, -⟩ | ⟨-, hnil⟩
      · exact ht hnil
      · exact hu hnil
    rw [words_eq_singleton hne hblank] at h
    exact (List.cons.inj h).1
  · rintro ⟨hw, rfl⟩
    rw [← words_trim, words_eq_singleton hw.1 hw.2]

/-! ### What is left of a line -/

theorem takeWhile_append_cons (p : Char → Bool) (hc : p c = false) (s t : List Char) :
    (s ++ c :: t).takeWhile p = s.takeWhile p := by
  rw [List.takeWhile_append, List.takeWhile_cons_of_neg (by simp [hc]), List.append_nil]
  split
  · next hall => exact ((List.takeWhile_prefix p).eq_of_length hall).symm
  · rfl

theorem uncommented_append_comment (s t : List Char) : uncommented (s ++ '#' :: t) = uncommented s :=
  takeWhile_append_cons (· != '#') (by rfl) s t

theorem uncommented_append_of_mem (hs : '#' ∈ s) (t : List Char) : uncommented (s ++ t) = uncommented s := by
  obtain ⟨before, comment, rfl⟩ := List.append_of_mem hs
  rw [List.append_assoc, List.cons_append, uncommented_append_comment, uncommented_append_comment]

theorem uncommented_append (hs : '#' ∉ s) (t : List Char) : uncommented (s ++ t) = s ++ uncommented t :=
  List.takeWhile_append_of_pos fun c hc => by
    rw [bne_iff_ne]
    rintro rfl
    exact hs hc

theorem uncommented_eq_self (hs : '#' ∉ s) : uncommented s = s := by
  have happend := uncommented_append hs []
  rwa [List.append_nil, show uncommented [] = [] from rfl, List.append_nil] at happend

theorem not_mem_content (line : List Char) : '#' ∉ content line := by
  intro h
  have hmem := (isInfix_trim _).subset h
  have hne := List.mem_takeWhile_imp hmem
  simp at hne

/-- A line without comment or blanks at its ends is its own content. -/
theorem content_eq_self (h : '#' ∉ s) (hhead : ∀ c, s.head? = some c → isBlank c = false)
    (hlast : ∀ c, s.getLast? = some c → isBlank c = false) : content s = s := by
  have hall : s.takeWhile (· != '#') = s := uncommented_eq_self h
  rw [content, hall, trim_eq_self hhead hlast]

theorem content_eq_nil_iff {line : List Char} : content line = [] ↔ HoldsNothing line := by
  constructor
  · intro h
    obtain ⟨lead, trail, hsplit, hlead, htrail⟩ := exists_trim (uncommented line)
    have hnil : trim (uncommented line) = [] := h
    rw [hnil, List.append_nil] at hsplit
    unfold HoldsNothing
    rw [hsplit]
    intro c hc
    exact (List.mem_append.1 hc).elim (hlead c) (htrail c)
  · intro h
    have hnil : (uncommented line).dropWhile isBlank = [] := List.dropWhile_eq_nil_iff.2 h
    show trim (uncommented line) = []
    rw [trim, hnil]
    rfl

/-! ### Texts with separators between them -/

section
variable {sep : List Char} {l : List (List Char)}

theorem mem_intercalate (h : c ∈ sep.intercalate l) : c ∈ sep ∨ ∃ w ∈ l, c ∈ w := by
  induction l with
  | nil => simp at h
  | cons w l ih =>
    cases l with
    | nil =>
      rw [List.intercalate_singleton] at h
      exact .inr ⟨w, List.mem_cons_self .., h⟩
    | cons w' l =>
      rw [List.intercalate_cons_cons, List.append_assoc, List.mem_append, List.mem_append] at h
      rcases h with h | h | h
      · exact .inr ⟨w, List.mem_cons_self .., h⟩
      · exact .inl h
      · rcases ih h with h | ⟨v, hv, h⟩
        · exact .inl h
        · exact .inr ⟨v, List.mem_cons_of_mem _ hv, h⟩

theorem mem_intercalate_of_mem {w : List Char} (hw : w ∈ l) (hc : c ∈ w) : c ∈ sep.intercalate l := by
  induction l with
  | nil => cases hw
  | cons v l ih =>
    cases l with
    | nil =>
      rw [List.mem_singleton.1 hw] at hc
      rwa [List.intercalate_singleton]
    | cons v' l =>
      rw [List.intercalate_cons_cons, List.append_assoc, List.mem_append, List.mem_append]
      rcases List.mem_cons.1 hw with rfl | hw
      · exact .inl hc
      · exact .inr (.inr (ih hw))

/-- The last character is not blank. -/
def EndsInWord (s : List Char) : Prop := ∃ c, s.getLast? = some c ∧ isBlank c = false

theorem EndsInWord.append (h : EndsInWord t) : EndsInWord (s ++ t) := by
  obtain ⟨c, hlast, hc⟩ := h
  exact ⟨c, by rw [List.getLast?_append, hlast]; rfl, hc⟩

theorem EndsInWord.intercalate (hne : l ≠ []) (h : ∀ w ∈ l, EndsInWord w) :
    EndsInWord (sep.intercalate l) := by
  induction l with
  | nil => exact absurd rfl hne
  | cons w l ih =>
    cases l with
    | nil => rw [List.intercalate_singleton]; exact h w (List.mem_cons_self ..)
    | cons w' l =>
      rw [List.intercalate_cons_cons]
      exact (ih (by simp) fun v hv => h v (List.mem_cons_of_mem _ hv)).append

theorem IsRun.endsInWord (h : IsRun w) : EndsInWord w :=
  ⟨w.getLast h.1, List.getLast?_eq_some_getLast h.1, h.2 _ (List.getLast_mem h.1)⟩

end

end Predictive.Text
