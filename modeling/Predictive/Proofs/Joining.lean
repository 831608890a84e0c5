import Predictive.Proofs.Cutting
import Predictive.Proofs.Reading

/-!
# Texts with blanks between them

Two texts with blanks between them are scanned one after the other (`tokenize_append_blanks`), if no
separator is blank: what is wrong with the first is wrong with both, and otherwise its tokens come first and
then those of the second, which stands where the first and the blanks end.

No piece goes on over a blank, and half an operator in front of one is no more than half an operator at the
end of a text (`pieceAt_append_blank`). So the scanner comes through the first text as if nothing stood
behind it, and is at the second one when the blanks are skipped. There it scans as from the start, except
for the places (`scanFrom_shift`).
-/

namespace Predictive

/-! ### Places in a longer text -/

namespace Point
variable {p base : Point} {c : Char}

/-- The point `p` of a text as a point of a longer one, in which the text begins at `base`: only what is on
its first line stands in `base`'s line and is moved to the right. -/
def shift (base p : Point) : Point :=
  ⟨base.line + (p.line - 1), if p.line = 1 then base.column + (p.column - 1) else p.column,
    base.index + p.index⟩

theorem next_pos (p : Point) (c : Char) (h : 1 ≤ p.line) : 1 ≤ (p.next c).line ∧ 1 ≤ (p.next c).column := by
  unfold next
  split
  · exact ⟨Nat.le_add_left .., Nat.le_refl 1⟩
  · exact ⟨h, Nat.le_add_left ..⟩

theorem shift_next (hline : 1 ≤ p.line) (hcolumn : 1 ≤ p.column) :
    base.shift (p.next c) = (base.shift p).next c := by
  unfold next
  split
  · have hnot : ¬ p.line + 1 = 1 := by omega
    have hlines : base.line + (p.line + 1 - 1) = base.line + (p.line - 1) + 1 := by omega
    simp only [shift, if_neg hnot, hlines, Nat.add_assoc]
  · have hcolumns : base.column + (p.column + 1 - 1) = base.column + (p.column - 1) + 1 := by omega
    simp only [shift, hcolumns, Nat.add_assoc]
    split <;> rfl

theorem shift_advance_of_pos (hline : 1 ≤ p.line) (hcolumn : 1 ≤ p.column) (s : List Char) :
    base.shift (p.advance s) = (base.shift p).advance s := by
  induction s generalizing p with
  | nil => rfl
  | cons c s ih =>
    obtain ⟨hline', hcolumn'⟩ := p.next_pos c hline
    rw [advance_cons, advance_cons, ih hline' hcolumn', shift_next hline hcolumn]

/-- Behind the same text it is the same text that is read from `base`. -/
theorem shift_advance (base : Point) (s : List Char) : base.shift (start.advance s) = base.advance s :=
  shift_advance_of_pos (Nat.le_refl 1) (Nat.le_refl 1) s

end Point

namespace Token
variable {T : Type}

/-- The token as one of a longer text, in which its text begins at `base`. -/
def shift (base : Point) (t : Token T) : Token T :=
  ⟨t.kind, t.lexeme, ⟨base.shift t.span.first, base.shift t.span.last⟩⟩

theorem shift_atEnd [Terminal T] (base : Point) (s : List Char) :
    (atEnd (Point.start.advance s)).shift base = (atEnd (base.advance s) : Token T) := by
  simp only [shift, atEnd, Span.single, Point.shift_advance]

end Token

namespace Postfix

/-- What the scanner finds, as part of a longer text. -/
def shifted (base : Point) : Except ScanError (List (Token Kind)) → Except ScanError (List (Token Kind))
  | .error e => .error ⟨e.character, base.shift e.position⟩
  | .ok tokens => .ok (tokens.map (·.shift base))

variable {separators : List Char} {c d : Char} {w s a b : List Char} {p : Point} {k : Kind}
  {ts : List (Token Kind)} {e : ScanError}

/-! ### Pieces in front of a blank -/

theorem operatorAt_append_blank (hc : Text.isBlank c = true) (d : Char) (w s : List Char) :
    operatorAt (d :: (w ++ c :: s)) = operatorAt (d :: w) := by
  cases w with
  | cons => rfl
  | nil =>
    have hnone : operatorAt.withKind (String.ofList [d, c]) = none := by
      refine Option.eq_none_iff_forall_ne_some.2 fun op hop => ?_
      obtain ⟨hmem, hspelling⟩ := mem_operators_of_withKind hop
      have hsep : ∀ d ∈ ([] : List Char), Text.isBlank d = false := by simp
      have hword : IsSpelling [] op.2 [d, c] := .symbol (hspelling ▸ lists_operators.spelling op hmem)
      have hblank := hword.isBlank_eq_false hsep c (by simp)
      rw [hc] at hblank
      cases hblank
    show (operatorAt.withKind (String.ofList [d, c])).or (operatorAt.withKind (String.ofList [d])) = _
    rw [hnone]
    rfl

theorem pieceAt_append_blank (hseparators : ∀ d ∈ separators, Text.isBlank d = false)
    (hc : Text.isBlank c = true) (hd : Text.isBlank d = false) (w s : List Char) :
    pieceAt separators (d :: (w ++ c :: s)) = pieceAt separators (d :: w) := by
  have hupper : isUpperCase c = false := Bool.eq_false_iff.2 fun h => by
    rw [isBlank_of_isUpperCase h] at hc
    cases hc
  have hdigit : isDigit c = false := Bool.eq_false_iff.2 fun h => by
    rw [isBlank_of_isDigit h] at hc
    cases hc
  have hword : (isUpperCase c || separators.contains c) = false := by
    rw [hupper, Bool.false_or, Bool.eq_false_iff]
    intro h
    rw [hseparators c (by simpa using h)] at hc
    cases hc
  have hnumber : (isDigit c || c == '.') = false := by
    rw [hdigit, Bool.false_or, beq_eq_false_iff_ne]
    rintro rfl
    cases hc
  unfold pieceAt
  dsimp only
  rw [Text.takeWhile_append_cons (fun d => isUpperCase d || separators.contains d) hword,
    Text.takeWhile_append_cons (fun d => isDigit d || d == '.') hnumber, operatorAt_append_blank hc,
    hd]
  rfl

/-! ### Texts by their pieces -/

/-- A text is empty, begins with a blank or a token, or cannot be scanned at its first character. -/
theorem scan_induction (separators : List Char) {P : List Char → Prop} (nil : P [])
    (blank : ∀ c s, Text.isBlank c = true → P s → P (c :: s))
    (token : ∀ w s k, pieceAt separators (w ++ s) = some (some k, w.length) → P s → P (w ++ s))
    (stuck : ∀ c s, Text.isBlank c = false → pieceAt separators (c :: s) = none → P (c :: s))
    (s : List Char) : P s := by
  induction hn : s.length using Nat.strongRecOn generalizing s with
  | ind n ih =>
    cases s with
    | nil => exact nil
    | cons c s =>
      cases hc : Text.isBlank c with
      | true => exact blank c s hc (ih s.length (hn ▸ Nat.lt_succ_self _) s rfl)
      | false =>
        by_cases hpiece : pieceAt separators (c :: s) = none
        · exact stuck c s hc hpiece
        · obtain ⟨k, w, r, hsplit, hlt, hpiece⟩ := exists_token_of_pieceAt hc hpiece
          rw [hsplit]
          exact token w r k hpiece (ih r.length (hn ▸ hlt) r rfl)

theorem scanFrom_stuck (h : pieceAt separators (c :: s) = none) (p : Point) :
    scanFrom separators p (c :: s) = .error ⟨c, p⟩ := by
  rw [scanFrom, h]

/-- Where a text begins is of no account for what is found in it, apart from the places. -/
theorem scanFrom_shift (separators : List Char) (base : Point) (s : List Char) (u : List Char) :
    scanFrom separators (base.advance u) s = shifted base (scanFrom separators (Point.start.advance u) s) := by
  induction s using scan_induction separators generalizing u with
  | nil => rw [scanFrom, scanFrom, shifted, List.map_singleton, Token.shift_atEnd]
  | blank c s hc ih =>
    have hnext (p : Point) : (p.advance u).next c = p.advance (u ++ [c]) := by
      rw [Point.advance_append]
      rfl
    rw [scanFrom_cons_blank hc, scanFrom_cons_blank hc, hnext, hnext, ih]
  | token w s k hw ih =>
    rw [scanFrom_piece hw, scanFrom_piece hw]
    simp only [← Point.advance_append, ih]
    cases scanFrom separators (Point.start.advance (u ++ w)) s with
    | error e => rfl
    | ok tokens => simp [Except.map, shifted, Token.shift, Point.shift_advance]
  | stuck c s _ hpiece => rw [scanFrom_stuck hpiece, scanFrom_stuck hpiece, shifted, Point.shift_advance]

/-- What the scanner stops at is a character of the text, at its place. -/
theorem exists_of_scanFrom_error (h : scanFrom separators p s = .error e) :
    ∃ before after, s = before ++ e.character :: after ∧ e.position = p.advance before := by
  induction s using scan_induction separators generalizing p with
  | nil =>
    rw [scanFrom] at h
    cases h
  | blank c s hc ih =>
    rw [scanFrom_cons_blank hc] at h
    obtain ⟨before, after, rfl, hposition⟩ := ih h
    exact ⟨c :: before, after, rfl, hposition⟩
  | token w s k hw ih =>
    rw [scanFrom_piece hw] at h
    cases hrest : scanFrom separators (p.advance w) s with
    | ok tokens =>
      rw [hrest] at h
      cases h
    | error e' =>
      rw [hrest] at h
      cases h
      obtain ⟨before, after, rfl, hposition⟩ := ih hrest
      exact ⟨w ++ before, after, (List.append_assoc ..).symm, by rw [hposition, Point.advance_append]⟩
  | stuck c s _ hpiece =>
    rw [scanFrom_stuck hpiece] at h
    cases h
    exact ⟨[], s, rfl, rfl⟩

theorem scanFrom_blanks_append (hs : ∀ c ∈ s, Text.isBlank c = true) (p : Point) (b : List Char) :
    scanFrom separators p (s ++ b) = scanFrom separators (p.advance s) b := by
  induction s generalizing p with
  | nil => rfl
  | cons c s ih =>
    obtain ⟨hc, hs⟩ := List.forall_mem_cons.1 hs
    rw [List.cons_append, scanFrom_cons_blank hc, ih hs]
    rfl

/-! ### Two texts -/

section
variable (hseparators : ∀ d ∈ separators, Text.isBlank d = false) (hc : Text.isBlank c = true)
include hseparators hc

/-- A piece in front of a blank is a piece of the text that ends there. -/
theorem pieceAt_piece_append_blank (hw : pieceAt separators (w ++ s) = some (some k, w.length)) :
    pieceAt separators (w ++ (s ++ c :: b)) = some (some k, w.length) := by
  have hpos := (length_of_pieceAt hw).1
  cases w with
  | nil => cases hpos
  | cons d w =>
    have hd : Text.isBlank d = false := Bool.eq_false_iff.2 fun h => by
      rw [List.cons_append, pieceAt_of_isBlank h] at hw
      cases hw
    rw [← hw, List.cons_append, List.cons_append, ← List.append_assoc,
      pieceAt_append_blank hseparators hc hd]

/-- What is wrong with a text stays wrong in front of a blank. -/
theorem scanFrom_append_blank_error (h : scanFrom separators p a = .error e) (b : List Char) :
    scanFrom separators p (a ++ c :: b) = .error e := by
  induction a using scan_induction separators generalizing p with
  | nil =>
    rw [scanFrom] at h
    cases h
  | blank d s hd ih =>
    rw [scanFrom_cons_blank hd] at h
    rw [List.cons_append, scanFrom_cons_blank hd, ih h]
  | token w s k hw ih =>
    rw [scanFrom_piece hw] at h
    rw [List.append_assoc, scanFrom_piece (pieceAt_piece_append_blank hseparators hc hw)]
    cases hrest : scanFrom separators (p.advance w) s with
    | ok tokens =>
      rw [hrest] at h
      cases h
    | error e' =>
      rw [hrest] at h
      cases h
      rw [ih hrest]
      rfl
  | stuck d s hd hpiece =>
    rw [scanFrom_stuck hpiece] at h
    cases h
    rw [List.cons_append]
    exact scanFrom_stuck (by rw [pieceAt_append_blank hseparators hc hd, hpiece]) p

theorem Scans.scanFrom_append_blank (h : Scans separators p a ts) (b : List Char) :
    scanFrom separators p (a ++ c :: b) =
      (scanFrom separators (p.advance (a ++ [c])) b).map (ts ++ ·) := by
  induction h with
  | nil p =>
    rw [List.nil_append, scanFrom_cons_blank hc]
    cases h : scanFrom separators (p.next c) b <;> simp [h, Except.map]
  | blank hd _ ih =>
    rw [List.cons_append, scanFrom_cons_blank hd, ih]
    rfl
  | @token p w s k ts hw _ ih =>
    rw [List.append_assoc, scanFrom_piece (pieceAt_piece_append_blank hseparators hc hw), ih,
      List.append_assoc, Point.advance_append p w]
    cases scanFrom separators ((p.advance w).advance (s ++ [c])) b <;> rfl

end

/-- The places of tokens are places of the text. -/
theorem Scans.exists_span (h : Scans separators p s ts) : ∀ t ∈ ts, ∃ u v, u <+: s ∧ v <+: s ∧
    t.span = ⟨p.advance u, p.advance v⟩ := by
  induction h with
  | nil => simp
  | @blank p c s ts _ _ ih =>
    intro t ht
    obtain ⟨u, v, hu, hv, hspan⟩ := ih t ht
    exact ⟨c :: u, c :: v, List.cons_prefix_cons.2 ⟨rfl, hu⟩, List.cons_prefix_cons.2 ⟨rfl, hv⟩, hspan⟩
  | @token p w s k ts _ _ ih =>
    refine List.forall_mem_cons.2 ⟨?_, fun t ht => ?_⟩
    · exact ⟨[], w.dropLast, List.nil_prefix, (List.dropLast_prefix w).trans (List.prefix_append ..), rfl⟩
    · obtain ⟨u, v, hu, hv, hspan⟩ := ih t ht
      refine ⟨w ++ u, w ++ v, (List.prefix_append_right_inj w).2 hu, (List.prefix_append_right_inj w).2 hv, ?_⟩
      rw [hspan, Point.advance_append, Point.advance_append]

theorem exists_span_of_scanFrom {tokens : List (Token Kind)} (h : scanFrom separators p s = .ok tokens) :
    ∀ t ∈ tokens, ∃ u v, u <+: s ∧ v <+: s ∧ t.span = ⟨p.advance u, p.advance v⟩ := by
  obtain ⟨ts, hts, rfl⟩ := scanFrom_eq_ok_iff.1 h
  intro t ht
  rcases List.mem_append.1 ht with ht | ht
  · exact hts.exists_span t ht
  · obtain rfl := List.mem_singleton.1 ht
    exact ⟨s, s, List.prefix_refl s, List.prefix_refl s, rfl⟩

/-- Behind a text without errors and blanks, another one is scanned as from the start. -/
theorem Scans.scanFrom_append_blanks (hseparators : ∀ d ∈ separators, Text.isBlank d = false)
    (h : Scans separators .start a ts) (hs : ∀ d ∈ c :: s, Text.isBlank d = true) (b : List Char) :
    scanFrom separators .start (a ++ c :: (s ++ b)) =
      (shifted (Point.start.advance (a ++ c :: s)) (scanFrom separators .start b)).map (ts ++ ·) := by
  obtain ⟨hc, hs⟩ := List.forall_mem_cons.1 hs
  have hbase : (Point.start.advance (a ++ [c])).advance s = Point.start.advance (a ++ c :: s) := by
    rw [← Point.advance_append, List.append_assoc]
    rfl
  rw [h.scanFrom_append_blank hseparators hc, scanFrom_blanks_append hs, hbase]
  exact congrArg (Except.map (ts ++ ·)) (scanFrom_shift separators _ b [])

/-- With blanks between them, two texts are refused exactly if one of them is: for what is wrong with the
first, or else for the character that is wrong in the second, at its place behind the first and the blanks.
Otherwise the tokens are those of the first without its end marker and those of the second, each at the same
place in the second text, which is read from where the first and the blanks end. -/
theorem tokenize_append_blanks (hseparators : ∀ c ∈ separators, Text.isBlank c = false) (a s b : String)
    (hne : s ≠ "") (hblank : ∀ c ∈ s.toList, Text.isBlank c = true) :
    let tokens := (lexer separators).tokenize
    let base := Point.start.advance (a ++ s).toList
    ((∃ e, tokens (a ++ s ++ b) = .error e) ↔ (∃ e, tokens a = .error e) ∨ ∃ e, tokens b = .error e) ∧
    (∀ e, tokens a = .error e → tokens (a ++ s ++ b) = .error e) ∧
    (∀ front e, tokens a = .ok front → tokens b = .error e →
      ∃ before after, b.toList = before ++ e.character :: after ∧
        e.position = Point.start.advance before ∧
        tokens (a ++ s ++ b) = .error ⟨e.character, base.advance before⟩) ∧
    ∀ front back, tokens a = .ok front → tokens b = .ok back →
      tokens (a ++ s ++ b) = .ok (front.dropLast ++ back.map (·.shift base)) ∧
      ∀ t ∈ back, ∃ u v, u <+: b.toList ∧ v <+: b.toList ∧
        t.span = ⟨Point.start.advance u, Point.start.advance v⟩ ∧
        (t.shift base).span = ⟨base.advance u, base.advance v⟩ := by
  intro tokens base
  obtain ⟨c, r, hs⟩ : ∃ c r, s.toList = c :: r := List.exists_cons_of_ne_nil (by simpa using hne)
  rw [hs] at hblank
  have htext (text : String) : tokens text = scanFrom separators .start text.toList := tokenize_lexer _ text
  have hjoined : tokens (a ++ s ++ b) = scanFrom separators .start (a.toList ++ c :: (r ++ b.toList)) := by
    rw [htext, String.toList_append, String.toList_append, hs, List.append_assoc, List.cons_append]
  have hfirst : ∀ e, tokens a = .error e → tokens (a ++ s ++ b) = .error e := by
    intro e he
    rw [htext] at he
    rw [hjoined, scanFrom_append_blank_error hseparators (hblank c (List.mem_cons_self ..)) he]
  have hsecond : ∀ front, tokens a = .ok front →
      tokens (a ++ s ++ b) = (shifted base (tokens b)).map (front.dropLast ++ ·) := by
    intro front hfront
    rw [htext] at hfront
    obtain ⟨ts, hts, rfl⟩ := scanFrom_eq_ok_iff.1 hfront
    have hbase : base = Point.start.advance (a.toList ++ c :: r) :=
      congrArg Point.start.advance (by rw [String.toList_append, hs])
    rw [hjoined, hts.scanFrom_append_blanks hseparators hblank, List.dropLast_concat, htext, hbase]
  refine ⟨?_, hfirst, fun front e hfront he => ?_, fun front back hfront hback => ⟨?_, fun t ht => ?_⟩⟩
  · cases hfront : tokens a with
    | error e => exact ⟨fun _ => .inl ⟨e, rfl⟩, fun _ => ⟨e, hfirst e hfront⟩⟩
    | ok front =>
      rw [hsecond front hfront]
      cases tokens b <;> simp [shifted, Except.map]
  · rw [hsecond front hfront, he]
    rw [htext] at he
    obtain ⟨before, after, hb, hposition⟩ := exists_of_scanFrom_error he
    refine ⟨before, after, hb, hposition, ?_⟩
    rw [shifted, hposition, Point.shift_advance]
    rfl
  · rw [hsecond front hfront, hback]
    rfl
  · rw [htext] at hback
    obtain ⟨u, v, hu, hv, hspan⟩ := exists_span_of_scanFrom hback t ht
    refine ⟨u, v, hu, hv, hspan, ?_⟩
    rw [Token.shift, hspan, Point.shift_advance, Point.shift_advance]

/-- A `>` in front of the blanks and a `>=` behind them stay two operators, the second on the next line, and
half an `&&` is an error on the line after that. -/
theorem tokenize_append_blanks_greater :
    (∀ c ∈ defaultSeparators, Text.isBlank c = false) ∧ "\n " ≠ "" ∧
    (∀ c ∈ "\n ".toList, Text.isBlank c = true) ∧
    (∃ front back, tokenize "(A_ >" = .ok front ∧ tokenize ">= 5\nB" = .ok back ∧
      tokenize ("(A_ >" ++ "\n " ++ ">= 5\nB") = .ok (front.dropLast ++ back.map (·.shift ⟨2, 2, 7⟩))) ∧
    ∃ before after, "B\n&".toList = before ++ '&' :: after ∧
      tokenize ("(A_ >" ++ "\n " ++ "B\n&") = .error ⟨'&', Point.advance ⟨2, 2, 7⟩ before⟩ := by
  have hseparators : ∀ c ∈ defaultSeparators, Text.isBlank c = false := List.forall_mem_singleton.2 (by decide)
  have hne : "\n " ≠ "" := by decide
  have hblank : ∀ c ∈ "\n ".toList, Text.isBlank c = true := List.all_eq_true.1 (by decide)
  have hscan (text : String) : tokenize text = scanFrom defaultSeparators .start text.toList :=
    tokenize_lexer _ text
  have hfront : (tokenize "(A_ >").toOption.isSome := by rw [hscan]; decide +kernel
  have hback : (tokenize ">= 5\nB").toOption.isSome := by rw [hscan]; decide +kernel
  have herror : tokenize "B\n&" = .error ⟨'&', ⟨2, 1, 2⟩⟩ := by rw [hscan]; decide +kernel
  obtain ⟨-, -, -, htokens⟩ := tokenize_append_blanks hseparators "(A_ >" "\n " ">= 5\nB" hne hblank
  obtain ⟨-, -, hsecond, -⟩ := tokenize_append_blanks hseparators "(A_ >" "\n " "B\n&" hne hblank
  obtain ⟨before, after, htext, -, hjoined⟩ := hsecond _ _ (eq_ok_get hfront) herror
  exact ⟨hseparators, hne, hblank, ⟨_, _, eq_ok_get hfront, eq_ok_get hback,
    (htokens _ _ (eq_ok_get hfront) (eq_ok_get hback)).1⟩, before, after, htext, hjoined⟩

end Postfix

end Predictive
