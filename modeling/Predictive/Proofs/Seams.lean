import Predictive.Proofs.Balance
import Predictive.Proofs.Runs
import Predictive.Proofs.Scanning

/-!
# Cutting and joining texts

`Scans` is the scanner without its errors: blanks are skipped one by one, and every other piece makes a
token. What decides on a piece is the text up to the character behind it. So a piece stays what it is if
the text is cut behind it (`pieceAt_of_append`) or is continued behind that character, and a closing
parenthesis whatever comes next (`pieceAt_append`). A text that scans can therefore be joined to another
one if its last token is a closing parenthesis (`Scans.scanFrom_append`).

A cut inside a piece leaves a piece that is no parenthesis, or half an operator (`pieceAt_of_cut`). So what
is left has the kinds of the text up to the cut, except for the last one, or it is refused at its last
character (`Scans.cut`).
-/

namespace Predictive.Postfix
open Kind

variable {separators : List Char} {c : Char} {w s q : List Char} {p : Point} {k : Kind} {n : Nat}

/-! ### Operators -/

section
variable {op op' : String × Kind}

theorem length_operator (h : op ∈ operators) : 1 ≤ op.1.length ∧ op.1.length ≤ 2 := by
  have hall : ∀ op ∈ operators, 1 ≤ op.1.toList.length ∧ op.1.toList.length ≤ 2 := by decide
  rw [← String.length_toList]
  exact hall op h

/-- The operator that is read is the longest one at the front. -/
theorem le_of_operatorAt (h : operatorAt s = some op) (h' : Starts s op') : op'.1.length ≤ op.1.length := by
  by_contra hlt
  have hpos := (length_operator (starts_of_operatorAt h).1).1
  have hlongest : operatorAt s = some op' := by
    refine operatorAt_eq_some h' ?_
    intro op'' h''
    have hle := (length_operator h''.1).2
    omega
  rw [h] at hlongest
  obtain rfl := Option.some.inj hlongest
  exact hlt (Nat.le_refl _)

theorem operatorAt_of_append (h : operatorAt (w ++ s) = some op) (hn : op.1.length ≤ w.length) :
    operatorAt w = some op := by
  obtain ⟨hmem, hstarts⟩ := starts_of_operatorAt h
  have hshort : op.1.toList <+: w :=
    List.prefix_of_prefix_length_le hstarts ⟨s, rfl⟩ (by rwa [String.length_toList])
  refine operatorAt_eq_some ⟨hmem, hshort⟩ ?_
  intro op' hop'
  exact le_of_operatorAt h ⟨hop'.1, hop'.2.trans ⟨s, rfl⟩⟩

theorem eq_closeParen_of_starts (h : Starts s op) (h' : Starts s op') (hop : op.2 = closeParen) : op' = op := by
  have hspelling : ∀ op ∈ operators, op.2 = closeParen → op = (")", closeParen) := by decide
  have hfirst : ∀ op ∈ operators, op.1.toList.head? = some ')' → op = (")", closeParen) := by decide
  obtain rfl := hspelling op h.1 hop
  obtain ⟨r, rfl⟩ := h.2
  refine hfirst op' h'.1 ?_
  obtain ⟨d, v, hd⟩ := List.exists_cons_of_ne_nil (toList_ne_nil_of_mem_operators h'.1)
  obtain ⟨z, hz⟩ := h'.2
  rw [hd] at hz ⊢
  exact congrArg List.head? hz

theorem operatorAt_append (h : operatorAt w = some op) (hn : op.1.length < w.length ∨ op.2 = closeParen)
    (s : List Char) : operatorAt (w ++ s) = some op := by
  obtain ⟨hmem, hstarts⟩ := starts_of_operatorAt h
  have hextends : Starts (w ++ s) op := ⟨hmem, hstarts.trans ⟨s, rfl⟩⟩
  refine operatorAt_eq_some hextends ?_
  intro op' hop'
  rcases hn with hn | hn
  · -- no operator has more than two characters, so the other one ends in `w` as well
    have hpos := (length_operator hmem).1
    have hle := (length_operator hop'.1).2
    have hshort : op'.1.toList <+: w :=
      List.prefix_of_prefix_length_le hop'.2 ⟨s, rfl⟩ (by rw [String.length_toList]; omega)
    exact le_of_operatorAt h ⟨hop'.1, hshort⟩
  · rw [eq_closeParen_of_starts hextends hop' hn]

/-- The first half of an operator of two characters is an operator, except for two of them. -/
theorem operatorAt_half (h : Starts (c :: s) op) (hlength : op.1.toList.length = 2) :
    ¬ IsParen op.2 ∧ ((∃ op', operatorAt [c] = some op' ∧ ¬ IsParen op'.2 ∧ op'.1.length = 1) ∨
      operatorAt [c] = none ∧ (c = '&' ∨ c = '=')) := by
  have hall : ∀ op ∈ operators, op.1.toList.length = 2 → ¬ IsParen op.2 ∧
      (∀ op' ∈ operatorAt (op.1.toList.take 1), ¬ IsParen op'.2) ∧
      (operatorAt (op.1.toList.take 1) = none → op.1.toList.take 1 = ['&'] ∨ op.1.toList.take 1 = ['=']) := by
    decide
  obtain ⟨hmem, r, hr⟩ := h
  obtain ⟨c', d, hcd⟩ := List.length_eq_two.1 hlength
  have hhalf := hall op hmem hlength
  rw [hcd] at hr hhalf
  obtain ⟨rfl, -⟩ := List.cons.inj hr
  obtain ⟨hparen, hsome, hnone⟩ := hhalf
  refine ⟨hparen, ?_⟩
  cases hop : operatorAt [c'] with
  | none =>
    have hc := hnone hop
    simp only [List.take_succ_cons, List.take_zero, List.cons.injEq, and_true] at hc
    exact .inr ⟨rfl, hc⟩
  | some op' =>
    have hstarts := starts_of_operatorAt hop
    have hle := hstarts.2.length_le
    have hpos := (length_operator hstarts.1).1
    rw [String.length_toList] at hle
    exact .inl ⟨op', rfl, hsome op' hop, Nat.le_antisymm hle hpos⟩

end

/-! ### Pieces -/

theorem not_isParen_wordKind (word : List Char) : ¬ IsParen (wordKind word) := by
  have hall : ∀ entry ∈ keywords, ¬ IsParen entry.2 := by decide
  rw [wordKind]
  cases hword : spelled? keyword? (String.ofList word) with
  | none => simp [IsParen]
  | some k => exact hall _ (lists_keywords.mem_iff.2 (of_spelled? hword))

theorem pieceAt_of_isBlank (hc : Text.isBlank c = true) (s : List Char) :
    pieceAt separators (c :: s) = some (none, 1 + (s.takeWhile Text.isBlank).length) := by
  have hupper : isUpperCase c ≠ true := by
    intro h
    rw [isBlank_of_isUpperCase h] at hc
    cases hc
  have hdigit : isDigit c ≠ true := by
    intro h
    rw [isBlank_of_isDigit h] at hc
    cases hc
  rw [pieceAt, if_neg hupper, if_neg hdigit, if_pos hc]

/-- The character begins tokens that go on with certain characters and are no parentheses. -/
def BeginsRun (separators : List Char) (c : Char) (tail : Char → Bool) (kind : List Char → Kind) : Prop :=
  (∀ word, ¬ IsParen (kind word)) ∧ ∀ s, pieceAt separators (c :: s) =
    some (some (kind (c :: s.takeWhile tail)), (c :: s.takeWhile tail).length)

/-- The character begins operators, if it begins anything. -/
def BeginsOperator (separators : List Char) (c : Char) : Prop :=
  ∀ s, pieceAt separators (c :: s) = (operatorAt (c :: s)).map fun op => (some op.2, op.1.length)

theorem beginsRun_or_beginsOperator (separators : List Char) (hc : Text.isBlank c = false) :
    (∃ tail kind, BeginsRun separators c tail kind) ∨ BeginsOperator separators c := by
  by_cases hupper : isUpperCase c = true
  · refine .inl ⟨fun d => isUpperCase d || separators.contains d, wordKind, not_isParen_wordKind, ?_⟩
    intro s
    rw [pieceAt, if_pos hupper]
  by_cases hdigit : isDigit c = true
  · refine .inl ⟨fun d => isDigit d || d == '.', fun _ => number, ?_, ?_⟩
    · intro word
      show ¬ IsParen number
      decide
    · intro s
      rw [pieceAt, if_neg hupper, if_pos hdigit, List.length_cons, Nat.add_comm]
  · refine .inr ?_
    intro s
    rw [pieceAt, if_neg hupper, if_neg hdigit, if_neg (by simp [hc])]

/-- A piece that makes a token is a run of characters or an operator. -/
theorem pieceAt_inv (h : pieceAt separators (c :: s) = some (some k, n)) :
    (∃ tail kind, BeginsRun separators c tail kind ∧ k = kind (c :: s.takeWhile tail) ∧
      n = (c :: s.takeWhile tail).length) ∨
    ∃ op, BeginsOperator separators c ∧ operatorAt (c :: s) = some op ∧ k = op.2 ∧ n = op.1.length := by
  have hc : Text.isBlank c = false := by
    refine Bool.eq_false_iff.2 ?_
    intro hc
    rw [pieceAt_of_isBlank hc] at h
    cases h
  rcases beginsRun_or_beginsOperator separators hc with ⟨tail, kind, hrun⟩ | hbegins
  · rw [hrun.2] at h
    cases h
    exact .inl ⟨tail, kind, hrun, rfl, rfl⟩
  · rw [hbegins] at h
    obtain ⟨op, hop, hn⟩ := Option.map_eq_some_iff.1 h
    cases hn
    exact .inr ⟨op, hbegins, hop, rfl, rfl⟩

theorem exists_kind_of_pieceAt {kind : Option Kind} (hc : Text.isBlank c = false)
    (h : pieceAt separators (c :: s) = some (kind, n)) : ∃ k, kind = some k := by
  rcases beginsRun_or_beginsOperator separators hc with ⟨tail, kind, hrun⟩ | hbegins
  · rw [hrun.2] at h
    cases h
    exact ⟨_, rfl⟩
  · rw [hbegins] at h
    obtain ⟨op, -, hkind⟩ := Option.map_eq_some_iff.1 h
    cases hkind
    exact ⟨_, rfl⟩

theorem length_of_pieceAt (h : pieceAt separators s = some (some k, n)) : 0 < n ∧ n ≤ s.length := by
  cases s with
  | nil => cases h
  | cons c s =>
    rcases pieceAt_inv h with ⟨tail, kind, -, -, rfl⟩ | ⟨op, -, hop, -, rfl⟩
    · exact ⟨Nat.succ_pos _, Nat.succ_le_succ (List.takeWhile_prefix tail).length_le⟩
    · obtain ⟨hmem, hstarts⟩ := starts_of_operatorAt hop
      have hle := hstarts.length_le
      rw [String.length_toList] at hle
      exact ⟨(length_operator hmem).1, hle⟩

theorem exists_token_of_pieceAt (hc : Text.isBlank c = false) (h : pieceAt separators (c :: s) ≠ none) :
    ∃ k w r, c :: s = w ++ r ∧ r.length < (c :: s).length ∧
      pieceAt separators (w ++ r) = some (some k, w.length) := by
  obtain ⟨⟨kind, n⟩, hpiece⟩ := Option.ne_none_iff_exists'.1 h
  obtain ⟨k, rfl⟩ := exists_kind_of_pieceAt hc hpiece
  obtain ⟨hpos, hle⟩ := length_of_pieceAt hpiece
  refine ⟨k, (c :: s).take n, (c :: s).drop n, (List.take_append_drop n _).symm, ?_, ?_⟩
  · rw [List.length_drop]
    omega
  · rw [List.take_append_drop, List.length_take_of_le hle]
    exact hpiece

theorem takeWhile_append_of_le {tail : Char → Bool} (h : ((w ++ s).takeWhile tail).length ≤ w.length) :
    (w ++ s).takeWhile tail = w.takeWhile tail := by
  rw [List.takeWhile_append] at h ⊢
  split at h
  · next hall =>
    rw [List.length_append] at h
    have hnil : s.takeWhile tail = [] := List.eq_nil_of_length_eq_zero (by omega)
    rw [if_pos hall, hnil, List.append_nil]
    exact ((List.takeWhile_prefix tail).eq_of_length hall).symm
  · next hall => rw [if_neg hall]

/-- A piece stays what it is if the text is cut behind it. -/
theorem pieceAt_of_append (h : pieceAt separators (w ++ s) = some (some k, n)) (hn : n ≤ w.length) :
    pieceAt separators w = some (some k, n) := by
  have hpos := (length_of_pieceAt h).1
  cases w with
  | nil => exact absurd hpos (Nat.not_lt.2 hn)
  | cons c w =>
    rw [List.cons_append] at h
    rcases pieceAt_inv h with ⟨tail, kind, hrun, rfl, rfl⟩ | ⟨op, hbegins, hop, rfl, rfl⟩
    · rw [hrun.2, takeWhile_append_of_le (Nat.le_of_succ_le_succ hn)]
    · rw [hbegins, operatorAt_of_append hop hn]
      rfl

/-- A piece stays what it is if the text goes on behind it, or if it is a closing parenthesis. -/
theorem pieceAt_append (h : pieceAt separators w = some (some k, n)) (hn : n < w.length ∨ k = closeParen)
    (s : List Char) : pieceAt separators (w ++ s) = some (some k, n) := by
  cases w with
  | nil => cases h
  | cons c w =>
    rw [List.cons_append]
    rcases pieceAt_inv h with ⟨tail, kind, hrun, rfl, rfl⟩ | ⟨op, hbegins, hop, rfl, rfl⟩
    · have hne : (w.takeWhile tail).length ≠ w.length := by
        rcases hn with hn | hn
        · exact Nat.ne_of_lt (Nat.lt_of_succ_lt_succ hn)
        · exact absurd (.inr hn) (hrun.1 _)
      rw [hrun.2, List.takeWhile_append, if_neg hne]
    · rw [hbegins, ← List.cons_append, operatorAt_append hop hn]
      rfl

/-- What is left of a piece that is cut: a piece again, or half an operator. -/
theorem pieceAt_of_cut (h : pieceAt separators (q ++ s) = some (some k, n)) (hq : q ≠ []) (hn : q.length < n) :
    ¬ IsParen k ∧ ((∃ k', ¬ IsParen k' ∧ pieceAt separators q = some (some k', q.length)) ∨
      ∃ c, q = [c] ∧ (c = '&' ∨ c = '=') ∧ pieceAt separators q = none) := by
  cases q with
  | nil => exact absurd rfl hq
  | cons c q =>
    rw [List.cons_append] at h
    rcases pieceAt_inv h with ⟨tail, kind, hrun, rfl, rfl⟩ | ⟨op, hbegins, hop, rfl, rfl⟩
    · have hall : q.takeWhile tail = q := by
        by_contra hne
        have hlength : (q.takeWhile tail).length ≠ q.length := fun heq =>
          hne ((List.takeWhile_prefix tail).eq_of_length heq)
        rw [List.takeWhile_append, if_neg hlength] at hn
        exact Nat.not_lt.2 (List.takeWhile_prefix tail).length_le (Nat.lt_of_succ_lt_succ hn)
      refine ⟨hrun.1 _, .inl ⟨kind (c :: q), hrun.1 _, ?_⟩⟩
      rw [hrun.2, hall]
    · obtain ⟨hmem, hstarts⟩ := starts_of_operatorAt hop
      have hle := (length_operator hmem).2
      rw [← String.length_toList] at hn hle
      rw [List.length_cons] at hn
      obtain rfl : q = [] := List.eq_nil_of_length_eq_zero (by omega)
      obtain ⟨hparen, hhalf⟩ := operatorAt_half ⟨hmem, hstarts⟩ (by omega)
      refine ⟨hparen, ?_⟩
      rcases hhalf with ⟨op', hfound, hparen', hlength⟩ | ⟨hnone, hc⟩
      · refine .inl ⟨op'.2, hparen', ?_⟩
        rw [hbegins, hfound, Option.map_some, hlength]
        rfl
      · refine .inr ⟨c, rfl, hc, ?_⟩
        rw [hbegins, hnone]
        rfl

/-! ### Whole texts -/

/-- The text that begins at the point has these tokens. -/
inductive Scans (separators : List Char) : Point → List Char → List (Token Kind) → Prop where
  | nil (p : Point) : Scans separators p [] []
  | blank {p : Point} {c : Char} {s : List Char} {ts : List (Token Kind)} : Text.isBlank c = true →
    Scans separators (p.next c) s ts → Scans separators p (c :: s) ts
  | token {p : Point} {w s : List Char} {k : Kind} {ts : List (Token Kind)} :
    pieceAt separators (w ++ s) = some (some k, w.length) → Scans separators (p.advance w) s ts →
    Scans separators p (w ++ s) (⟨k, String.ofList w, ⟨p, p.advance w.dropLast⟩⟩ :: ts)

variable {ts : List (Token Kind)}

theorem scanFrom_blanks (hc : Text.isBlank c = true) (p : Point) (s : List Char) :
    scanFrom separators p (c :: s) =
      scanFrom separators (p.advance (c :: s.takeWhile Text.isBlank)) (s.dropWhile Text.isBlank) := by
  have htake : s.take (s.takeWhile Text.isBlank).length = s.takeWhile Text.isBlank :=
    (List.prefix_iff_eq_take.1 (List.takeWhile_prefix _)).symm
  have hdrop : (s.takeWhile Text.isBlank ++ s.dropWhile Text.isBlank).drop
      (s.takeWhile Text.isBlank).length = s.dropWhile Text.isBlank := List.drop_left
  rw [List.takeWhile_append_dropWhile] at hdrop
  rw [scanFrom, pieceAt_of_isBlank hc]
  simp only [Nat.add_sub_cancel_left, htake, hdrop]
  cases scanFrom separators (p.advance (c :: s.takeWhile Text.isBlank)) (s.dropWhile Text.isBlank) <;> rfl

theorem scanFrom_cons_blank (hc : Text.isBlank c = true) (p : Point) (s : List Char) :
    scanFrom separators p (c :: s) = scanFrom separators (p.next c) s := by
  rw [scanFrom_blanks hc]
  cases s with
  | nil => rfl
  | cons d s =>
    by_cases hd : Text.isBlank d = true
    · rw [scanFrom_blanks hd, List.takeWhile_cons_of_pos hd, List.dropWhile_cons_of_pos hd]
      rfl
    · rw [List.takeWhile_cons_of_neg hd, List.dropWhile_cons_of_neg hd]
      rfl

theorem scanFrom_piece (h : pieceAt separators (w ++ s) = some (some k, w.length)) (p : Point) :
    scanFrom separators p (w ++ s) = (scanFrom separators (p.advance w) s).map
      (⟨k, String.ofList w, ⟨p, p.advance w.dropLast⟩⟩ :: ·) := by
  have hpos := (length_of_pieceAt h).1
  cases w with
  | nil => cases hpos
  | cons c w =>
    rw [List.cons_append] at h ⊢
    rw [scanFrom, h]
    simp only [List.length_cons, Nat.add_sub_cancel, List.take_left, List.drop_left]
    cases scanFrom separators (p.advance (c :: w)) s <;> rfl

theorem scans_of_scanFrom {tokens : List (Token Kind)} (h : scanFrom separators p s = .ok tokens) :
    ∃ ts, Scans separators p s ts ∧ tokens = ts ++ [.atEnd (p.advance s)] := by
  induction hn : s.length using Nat.strongRecOn generalizing p s tokens with
  | ind n ih =>
    cases s with
    | nil =>
      rw [scanFrom] at h
      cases h
      exact ⟨[], .nil p, rfl⟩
    | cons c s =>
      by_cases hc : Text.isBlank c = true
      · rw [scanFrom_cons_blank hc] at h
        obtain ⟨ts, hts, rfl⟩ := ih s.length (hn ▸ Nat.lt_succ_self _) h rfl
        exact ⟨ts, .blank hc hts, rfl⟩
      · have hpiece : pieceAt separators (c :: s) ≠ none := by
          intro hnone
          rw [scanFrom, hnone] at h
          cases h
        obtain ⟨k, w, r, hsplit, hlt, hpiece⟩ := exists_token_of_pieceAt (Bool.eq_false_iff.2 hc) hpiece
        rw [hsplit, scanFrom_piece hpiece] at h
        cases hrest : scanFrom separators (p.advance w) r with
        | error e =>
          rw [hrest] at h
          cases h
        | ok rest =>
          rw [hrest] at h
          cases h
          obtain ⟨ts, hts, rfl⟩ := ih r.length (hn ▸ hlt) hrest rfl
          rw [hsplit, Point.advance_append]
          exact ⟨_, .token hpiece hts, rfl⟩

theorem scanFrom_eq_ok_iff {tokens : List (Token Kind)} : scanFrom separators p s = .ok tokens ↔
    ∃ ts, Scans separators p s ts ∧ tokens = ts ++ [.atEnd (p.advance s)] := by
  constructor
  · exact scans_of_scanFrom
  · rintro ⟨ts, hts, rfl⟩
    induction hts with
    | nil p => rw [scanFrom]; rfl
    | blank hc _ ih => rw [scanFrom_cons_blank hc, ih]; rfl
    | token hw _ ih => rw [scanFrom_piece hw, ih, Point.advance_append]; rfl

theorem tokenize_lexer_eq_ok_iff {text : String} {tokens : List (Token Kind)} :
    (lexer separators).tokenize text = .ok tokens ↔ ∃ ts, Scans separators .start text.toList ts ∧
      tokens = ts ++ [.atEnd (Point.start.advance text.toList)] := by
  rw [tokenize_lexer, scan, scanFrom_eq_ok_iff]

theorem scans_of_tokenize_lexer {text : String}
    (h : (lexer separators).tokenize text = .ok (ts ++ [.atEnd p])) :
    Scans separators .start text.toList ts := by
  obtain ⟨ts', hts, heq⟩ := tokenize_lexer_eq_ok_iff.1 h
  rwa [List.append_inj_left' heq rfl]

/-- The kind and the text of each token. -/
def texts (ts : List (Token Kind)) : List (Kind × String) := ts.map fun t => (t.kind, t.lexeme)

theorem kinds_of_texts {ts' : List (Token Kind)} (h : texts ts = texts ts') : kinds ts = kinds ts' := by
  have hfst := congrArg (List.map Prod.fst) h
  simpa [texts, kinds, Function.comp_def] using hfst

namespace Scans

theorem unique {ts' : List (Token Kind)} (h : Scans separators p s ts) (h' : Scans separators p s ts') :
    ts = ts' := by
  have heq := scanFrom_eq_ok_iff.2 ⟨ts, h, rfl⟩
  rw [scanFrom_eq_ok_iff.2 ⟨ts', h', rfl⟩] at heq
  exact (List.append_cancel_right (Except.ok.inj heq)).symm

/-- Where a text begins is of no account for what it is cut into. -/
theorem restart (h : Scans separators p s ts) (p' : Point) :
    ∃ ts', Scans separators p' s ts' ∧ texts ts' = texts ts := by
  induction h generalizing p' with
  | nil => exact ⟨[], .nil p', rfl⟩
  | blank hc _ ih =>
    obtain ⟨ts', hts', heq⟩ := ih (p'.next _)
    exact ⟨ts', .blank hc hts', heq⟩
  | token hw _ ih =>
    obtain ⟨ts', hts', heq⟩ := ih (p'.advance _)
    exact ⟨_, .token hw hts', congrArg (List.cons _) heq⟩

theorem nil_iff : Scans separators p s [] ↔ ∀ c ∈ s, Text.isBlank c = true := by
  constructor
  · intro h
    generalize hts : ([] : List (Token Kind)) = ts at h
    induction h with
    | nil => simp
    | blank hc _ ih => exact List.forall_mem_cons.2 ⟨hc, ih hts⟩
    | token => cases hts
  · intro h
    induction s generalizing p with
    | nil => exact .nil p
    | cons c s ih =>
      obtain ⟨hc, hs⟩ := List.forall_mem_cons.1 h
      exact .blank hc (ih hs)

theorem eq_nil (h : Scans separators p [] ts) : ts = [] := by
  generalize hs : ([] : List Char) = s at h
  cases h with
  | nil => rfl
  | blank => cases hs
  | token hw _ =>
    obtain ⟨rfl, rfl⟩ := List.append_eq_nil_iff.1 hs.symm
    cases hw

/-- Behind a closing parenthesis another text can go on, without a blank between them. -/
theorem scanFrom_append (h : Scans separators p w ts)
    (hlast : kinds ts = [] ∨ ∃ u, kinds ts = u ++ [closeParen]) (s : List Char) :
    scanFrom separators p (w ++ s) = (scanFrom separators (p.advance w) s).map (ts ++ ·) := by
  induction h with
  | nil p => cases h : scanFrom separators p s <;> simp [h, Except.map]
  | blank hc _ ih =>
    rw [List.cons_append, scanFrom_cons_blank hc, ih hlast]
    rfl
  | @token p w r k ts hw hr ih =>
    have hcases : kinds ts = [] ∧ k = closeParen ∨ ∃ u, kinds ts = u ++ [closeParen] := by
      obtain ⟨u, hu⟩ := hlast.resolve_left (List.cons_ne_nil _ _)
      rcases List.cons_eq_append_iff.1 hu with ⟨-, hlast⟩ | ⟨u, -, hu⟩
      · obtain ⟨hk, hts⟩ := List.cons.inj hlast
        exact .inl ⟨hts.symm, hk.symm⟩
      · exact .inr ⟨u, hu⟩
    have hpiece : pieceAt separators (w ++ (r ++ s)) = some (some k, w.length) := by
      rw [← List.append_assoc]
      refine pieceAt_append hw ?_ s
      rcases hcases with ⟨-, hk⟩ | ⟨u, hu⟩
      · exact .inr hk
      · have hne : r ≠ [] := by
          rintro rfl
          rw [hr.eq_nil] at hu
          simp at hu
        rw [List.length_append]
        exact .inl (Nat.lt_add_of_pos_right (List.length_pos_iff.2 hne))
    have hrest := hcases.imp_left And.left
    rw [List.append_assoc, scanFrom_piece hpiece, ih hrest, Point.advance_append]
    cases scanFrom separators ((p.advance w).advance r) s <;> rfl

theorem append_iff {all : List (Token Kind)} (h : Scans separators p w ts)
    (hlast : kinds ts = [] ∨ ∃ u, kinds ts = u ++ [closeParen]) :
    Scans separators p (w ++ s) all ↔ ∃ ts', Scans separators (p.advance w) s ts' ∧ all = ts ++ ts' := by
  have happend := h.scanFrom_append hlast s
  constructor
  · intro hall
    rw [scanFrom_eq_ok_iff.2 ⟨all, hall, rfl⟩] at happend
    cases hs : scanFrom separators (p.advance w) s with
    | error e =>
      rw [hs] at happend
      cases happend
    | ok tokens =>
      rw [hs] at happend
      obtain ⟨ts', hts', rfl⟩ := scanFrom_eq_ok_iff.1 hs
      have heq := Except.ok.inj happend
      dsimp only at heq
      rw [← List.append_assoc] at heq
      exact ⟨ts', hts', List.append_inj_left' heq rfl⟩
  · rintro ⟨ts', hts', rfl⟩
    rw [scanFrom_eq_ok_iff.2 ⟨ts', hts', rfl⟩] at happend
    obtain ⟨all, hall, heq⟩ := scanFrom_eq_ok_iff.1 happend
    dsimp only at heq
    rw [← List.append_assoc] at heq
    rwa [List.append_inj_left' heq rfl]

end Scans

/-! ### Cutting a text -/

/-- The text scans into a cut of the kinds, or ends in half an operator. -/
def ScansCut (separators : List Char) (p : Point) (q : List Char) (v : List Kind) : Prop :=
  (∃ ts, Scans separators p q ts ∧ Cut (kinds ts) v) ∨
    ∃ a c, q = a ++ [c] ∧ (c = '&' ∨ c = '=') ∧ scanFrom separators p q = .error ⟨c, p.advance a⟩

namespace ScansCut
variable {v : List Kind}

theorem nil (separators : List Char) (p : Point) (v : List Kind) : ScansCut separators p [] v :=
  .inl ⟨[], .nil p, .nil v⟩

theorem blank (hc : Text.isBlank c = true) (h : ScansCut separators (p.next c) q v) :
    ScansCut separators p (c :: q) v := by
  rcases h with ⟨ts, hts, hcut⟩ | ⟨a, d, rfl, hd, herror⟩
  · exact .inl ⟨ts, .blank hc hts, hcut⟩
  · refine .inr ⟨c :: a, d, rfl, hd, ?_⟩
    rw [scanFrom_cons_blank hc, herror]
    rfl

theorem token (hw : pieceAt separators (w ++ q) = some (some k, w.length))
    (h : ScansCut separators (p.advance w) q v) : ScansCut separators p (w ++ q) (k :: v) := by
  rcases h with ⟨ts, hts, hcut⟩ | ⟨a, d, rfl, hd, herror⟩
  · exact .inl ⟨_, .token hw hts, .cons k hcut⟩
  · refine .inr ⟨w ++ a, d, (List.append_assoc ..).symm, hd, ?_⟩
    rw [scanFrom_piece hw, herror, Point.advance_append]
    rfl

theorem inside (hw : pieceAt separators (q ++ s) = some (some k, n)) (hq : q.length < n) :
    ScansCut separators p q (k :: v) := by
  by_cases hnil : q = []
  · rw [hnil]
    exact nil separators p _
  obtain ⟨hk, ⟨k', hk', hpiece⟩ | ⟨c, rfl, hc, hnone⟩⟩ := pieceAt_of_cut hw hnil hq
  · have hscans : Scans separators p (q ++ []) [⟨k', String.ofList q, ⟨p, p.advance q.dropLast⟩⟩] :=
      .token (by rwa [List.append_nil]) (.nil _)
    rw [List.append_nil] at hscans
    exact .inl ⟨_, hscans, .last v hk' hk⟩
  · refine .inr ⟨[], c, rfl, hc, ?_⟩
    rw [scanFrom, hnone]
    rfl

end ScansCut

theorem Scans.cut (h : Scans separators p s ts) (hq : q <+: s) : ScansCut separators p q (kinds ts) := by
  induction h generalizing q with
  | nil p =>
    rw [List.prefix_nil.1 hq]
    exact .nil separators p _
  | @blank p c s ts hc _ ih =>
    rcases List.prefix_cons_iff.1 hq with rfl | ⟨z, rfl, hz⟩
    · exact .nil separators p _
    · exact .blank hc (ih hz)
  | @token p w r k ts hw _ ih =>
    rcases Nat.lt_or_ge q.length w.length with hlt | hge
    · obtain ⟨z, hz⟩ := hq
      rw [← hz] at hw
      exact .inside hw hlt
    · obtain ⟨z, rfl⟩ := List.prefix_of_prefix_length_le ⟨r, rfl⟩ hq hge
      obtain ⟨r', rfl⟩ := (List.prefix_append_right_inj w).1 hq
      rw [← List.append_assoc] at hw
      exact .token (pieceAt_of_append hw (by simp)) (ih ⟨r', rfl⟩)

end Predictive.Postfix
